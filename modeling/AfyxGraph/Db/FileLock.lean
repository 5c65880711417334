import AfyxGraph.Core.Transition
import AfyxGraph.Core.TextParts
import Mathlib.Logic.Function.Basic

/-! # The database lock file

`FileLock` takes a lock by creating a file with its pid in it, and takes over a lock it
judges stale by unlinking the file first. Every file operation is a step of its own here, so
that any number of processes can be between two operations of `acquire` or `release`.
-/

namespace AfyxGraph.Db.FileLock

open AfyxGraph.Core

abbrev Pid := Nat

/-- A file at the lock path. The stamp tells it from every other file that was ever there;
the code sees the content and the modification time only. -/
structure LockFile where
  stamp : Nat
  content : Text
  mtimeMs : Nat
  deriving DecidableEq, Repr

/-- The file operation a process is about to make. -/
inductive Phase where
  | idle
  | checks
  | reads
  | stats (read : LockFile)
  | judges (read statted : LockFile)
  | unlinks (judged : Option LockFile)
  | unlinksAnyway
  | creates
  | releaseReads
  | releaseUnlinks
  deriving DecidableEq, Repr

structure Process where
  phase : Phase := .idle
  held : Bool := false
  deriving DecidableEq, Repr

structure State where
  now : Nat
  file : Option LockFile
  created : Nat
  process : Pid → Option Process

/-- What `process.kill(pid, 0)` is answered for a live process, and for the pids that name
a process group. -/
structure Signals where
  permitted : (sender receiver : Pid) → Bool
  group : Int → Bool

inductive Label where
  | starts (pid : Pid)
  | dies (pid : Pid)
  | acquire (pid : Pid)
  | release (pid : Pid)
  | step (pid : Pid) (fault : Bool)
  | tick (ms : Nat)
  deriving DecidableEq, Repr

/-- Locks older than this are considered stale whatever their pid. -/
def staleTimeoutMs : Nat := 2 * 60 * 1000

def LockFile.pid (f : LockFile) : Option Int := Text.parseInt (Text.trim f.content)

namespace State

def put (s : State) (pid : Pid) (p : Option Process) : State :=
  { s with process := Function.update s.process pid p }

/-- The process goes on to its next file operation. -/
def enter (s : State) (pid : Pid) (p : Process) (phase : Phase) : State :=
  s.put pid (some { p with phase })

def unlink (s : State) : State := { s with file := none }

def create (s : State) (pid : Pid) : State :=
  { s with file := some ⟨s.created, Text.ofNat pid, s.now⟩, created := s.created + 1 }

/-- What a file operation that does not fail finds. -/
def sees (s : State) (fault : Bool) : Option LockFile := if fault then none else s.file

def holds (s : State) (pid : Pid) : Bool := (s.process pid).any (·.held)

end State

/-- Any error of the signal counts as a dead process. -/
def isProcessAlive (signals : Signals) (s : State) (self : Pid) : Int → Bool
  | .ofNat pid => pid = 0 || ((s.process pid).isSome && signals.permitted self pid)
  | .negSucc n => signals.group (.negSucc n)

/-- The lock is young and its pid is the one of a live process. -/
def isLive (signals : Signals) (s : State) (self : Pid) (read statted : LockFile) : Bool :=
  s.now - statted.mtimeMs < staleTimeoutMs &&
    read.pid.any (isProcessAlive signals s self)

/-- One file operation. A fault is an error of the operation other than a missing or an
existing file. A lock judged live ends `acquire` with an error, as does a file that exists
at the exclusive create. -/
def takeStep (signals : Signals) (s : State) (pid : Pid) (p : Process) (fault : Bool) :
    Option State :=
  match p.phase with
  | .idle => none
  | .checks =>
      some (s.enter pid p (if (s.sees fault).isSome then .reads else .creates))
  | .reads =>
      match s.sees fault with
      | some f => some (s.enter pid p (.stats f))
      | none => some (s.enter pid p .unlinksAnyway)
  | .stats read =>
      match s.sees fault with
      | some f => some (s.enter pid p (.judges read f))
      | none => some (s.enter pid p .unlinksAnyway)
  | .judges read statted =>
      if fault then none
      else if isLive signals s pid read statted then some (s.enter pid p .idle)
      else some (s.enter pid p (.unlinks (if read = statted then some read else none)))
  | .unlinks _ =>
      match s.sees fault with
      | some _ => some (s.unlink.enter pid p .creates)
      | none => some (s.enter pid p .unlinksAnyway)
  | .unlinksAnyway =>
      some ((if fault then s else s.unlink).enter pid p .creates)
  | .creates =>
      if fault || s.file.isSome then some (s.enter pid p .idle)
      else some ((s.create pid).enter pid { p with held := true } .idle)
  | .releaseReads =>
      match s.sees fault with
      | some f =>
          if f.pid = some (pid : Int) then some (s.enter pid p .releaseUnlinks)
          else some (s.enter pid { p with held := false } .idle)
      | none => some (s.enter pid { p with held := false } .idle)
  | .releaseUnlinks =>
      some ((if fault then s else s.unlink).enter pid { p with held := false } .idle)

/-- All processes on one lock path. -/
def machine (signals : Signals) : Machine State Label := fun s l =>
  match l with
  | .starts pid =>
      match s.process pid with
      | none => some (s.put pid (some {}))
      | some _ => none
  | .dies pid => some (s.put pid none)
  | .acquire pid =>
      match s.process pid with
      | some p => if p.phase = .idle then some (s.enter pid p .checks) else none
      | none => none
  | .release pid =>
      match s.process pid with
      | some p =>
          if p.phase = .idle then
            some (if p.held then s.enter pid p .releaseReads else s)
          else none
      | none => none
  | .step pid fault =>
      match s.process pid with
      | some p => takeStep signals s pid p fault
      | none => none
  | .tick ms => some { s with now := s.now + ms }

/-- No process has started; the path may hold a file with any content and age. -/
def initial (now : Nat) (found : Option (Text × Nat)) : State where
  now := now
  file := found.map fun f => ⟨0, f.1, f.2⟩
  created := 1
  process := fun _ => none

/-! ## Exclusion -/

/-- At most one live process is between a successful `acquire` and the end of its `release`. -/
def AtMostOneHolder (s : State) : Prop :=
  ∀ p q, s.holds p = true → s.holds q = true → p = q

/-- The file is the lock of a live process that holds it. -/
def liveLock (s : State) (f : LockFile) : Bool :=
  f.pid.any fun
    | .ofNat pid => s.holds pid
    | .negSucc _ => false

/-- No lock becomes stale by its age while it is held. -/
def keepsFresh (s : State) : Label → Bool
  | .tick ms => s.file.all fun f => !liveLock s f || s.now + ms - f.mtimeMs < staleTimeoutMs
  | _ => true

/-- `acquire` may signal the live holder it asks about, and unlinks the very file it judged
or one that no live process holds. -/
def takesOverJudged (signals : Signals) (s : State) : Label → Bool
  | .step pid false =>
      (s.process pid).all fun p =>
        match p.phase with
        | .judges read _ =>
            read.pid.all fun
              | .ofNat holder => !s.holds holder || signals.permitted pid holder
              | .negSucc _ => true
        | .unlinks judged => s.file.all fun f => judged = some f || !liveLock s f
        | .unlinksAnyway => s.file.all fun f => !liveLock s f
        | _ => true
  | _ => true

/-! ## What a state keeps -/

variable {signals : Signals} {s t : State}

/-- What a process in a phase relies on: files it has seen are older than any to come, a
file judged stale is not the lock of a holder, and a release is one of a held lock. -/
def Known (s : State) (p : Process) : Prop :=
  match p.phase with
  | .stats read | .judges read _ => read.stamp < s.created
  | .unlinks (some f) => f.stamp < s.created ∧ (s.file = some f → liveLock s f = false)
  | .releaseReads | .releaseUnlinks => p.held = true
  | _ => True

structure Inv (s : State) : Prop where
  owns : ∀ pid, s.holds pid = true → ∃ f, s.file = some f ∧ f.content = Text.ofNat pid
  fresh : ∀ f, s.file = some f → liveLock s f = true → s.now - f.mtimeMs < staleTimeoutMs
  stamped : ∀ f, s.file = some f → f.stamp < s.created
  known : ∀ pid p, s.process pid = some p → Known s p

theorem pid_of_content {f : LockFile} {pid : Pid} (h : f.content = Text.ofNat pid) :
    f.pid = some (pid : Int) := by
  rw [LockFile.pid, h, Text.trim_ofNat, Text.parseInt_ofNat]

theorem ofNat_injective {p q : Pid} (h : Text.ofNat p = Text.ofNat q) : p = q := by
  have hp := Text.parseInt_ofNat p
  rw [h, Text.parseInt_ofNat q, Option.some.injEq] at hp
  exact (Int.ofNat.inj hp).symm

theorem liveLock_of_holds {f : LockFile} {pid : Pid} (hf : f.content = Text.ofNat pid)
    (h : s.holds pid = true) : liveLock s f = true := by
  rw [liveLock, pid_of_content hf]
  exact h

/-- Fewer holders make fewer live locks. -/
theorem liveLock_mono (h : ∀ pid, t.holds pid = true → s.holds pid = true) {f : LockFile}
    (hlive : liveLock t f = true) : liveLock s f = true := by
  rw [liveLock] at hlive ⊢
  cases hpid : f.pid with
  | none => simp [hpid] at hlive
  | some pid =>
      rw [hpid] at hlive
      cases pid with
      | ofNat pid => exact h pid hlive
      | negSucc n => cases hlive

/-- What a process relies on stays, when a file it has seen becomes no holder's. -/
theorem Known.mono {p : Process} (h : Known s p) (hcreated : s.created ≤ t.created)
    (hlive : ∀ f, f.stamp < s.created → t.file = some f → liveLock t f = true →
      s.file = some f ∧ liveLock s f = true) : Known t p := by
  obtain ⟨phase, held⟩ := p
  cases phase with
  | stats read => exact Nat.lt_of_lt_of_le h hcreated
  | judges read statted => exact Nat.lt_of_lt_of_le h hcreated
  | unlinks judged =>
      cases judged with
      | none => trivial
      | some f =>
          obtain ⟨hstamp, hdead⟩ := h
          refine ⟨Nat.lt_of_lt_of_le hstamp hcreated, fun hf => ?_⟩
          by_contra hne
          obtain ⟨hsf, hslive⟩ := hlive f hstamp hf (by simpa using hne)
          rw [hdead hsf] at hslive
          cases hslive
  | _ => exact h

namespace Inv

theorem exclusive (h : Inv s) : AtMostOneHolder s := by
  intro p q hp hq
  obtain ⟨f, hf, hpf⟩ := h.owns p hp
  obtain ⟨g, hg, hqg⟩ := h.owns q hq
  cases hf.symm.trans hg
  exact ofNat_injective (hpf.symm.trans hqg)

/-- Nobody holds a path that is empty, or that has a file which is no holder's. -/
theorem vacant (h : Inv s) (hfile : ∀ f, s.file = some f → liveLock s f = false) (pid : Pid) :
    s.holds pid = false := by
  cases hholds : s.holds pid with
  | false => rfl
  | true =>
      obtain ⟨f, hf, hcontent⟩ := h.owns pid hholds
      have hlive := liveLock_of_holds hcontent hholds
      rw [hfile f hf] at hlive
      cases hlive

/-- A step that leaves the path alone and makes no holder. -/
theorem of_quiet (h : Inv s) (hfile : t.file = s.file) (hcreated : t.created = s.created)
    (hnow : t.now = s.now) (hholds : ∀ pid, t.holds pid = true → s.holds pid = true)
    (hknown : ∀ pid p, t.process pid = some p → s.process pid = some p ∨ Known t p) : Inv t := by
  refine ⟨?_, ?_, ?_, ?_⟩
  · intro pid hpid
    rw [hfile]
    exact h.owns pid (hholds pid hpid)
  · intro f hf hlive
    rw [hnow]
    exact h.fresh f (hfile ▸ hf) (liveLock_mono hholds hlive)
  · intro f hf
    rw [hcreated]
    exact h.stamped f (hfile ▸ hf)
  · intro pid p hp
    rcases hknown pid p hp with hp | hp
    · refine (h.known pid p hp).mono (Nat.le_of_eq hcreated.symm) fun f _ hf hlive => ?_
      exact ⟨hfile ▸ hf, liveLock_mono hholds hlive⟩
    · exact hp

/-- A step that empties the path and leaves no holder. -/
theorem of_vacated (h : Inv s) (hfile : t.file = none) (hcreated : t.created = s.created)
    (hholds : ∀ pid, t.holds pid = false)
    (hknown : ∀ pid p, t.process pid = some p → s.process pid = some p ∨ Known t p) : Inv t := by
  refine ⟨?_, ?_, ?_, ?_⟩
  · intro pid hpid
    rw [hholds pid] at hpid
    cases hpid
  · intro f hf
    rw [hfile] at hf
    cases hf
  · intro f hf
    rw [hfile] at hf
    cases hf
  · intro pid p hp
    rcases hknown pid p hp with hp | hp
    · refine (h.known pid p hp).mono (Nat.le_of_eq hcreated.symm) fun f _ hf _ => ?_
      rw [hfile] at hf
      cases hf
    · exact hp

end Inv

/-! ## Single steps -/

theorem put_process (pid q : Pid) (p : Option Process) :
    (s.put pid p).process q = if q = pid then p else s.process q := by
  simp [State.put, Function.update_apply]

/-- A process that keeps its flag, or drops it, makes no holder. -/
theorem holds_put {pid : Pid} {p : Option Process}
    (h : p.any (·.held) = true → s.holds pid = true) (q : Pid)
    (hq : (s.put pid p).holds q = true) : s.holds q = true := by
  rw [State.holds, put_process] at hq
  by_cases hqp : q = pid
  · rw [if_pos hqp] at hq
    rw [hqp]
    exact h hq
  · rw [if_neg hqp] at hq
    exact hq

theorem known_put {pid : Pid} {p : Option Process}
    (h : ∀ p', p = some p' → Known (s.put pid p) p') (q : Pid) (p' : Process)
    (hq : (s.put pid p).process q = some p') :
    s.process q = some p' ∨ Known (s.put pid p) p' := by
  rw [put_process] at hq
  by_cases hqp : q = pid
  · rw [if_pos hqp] at hq
    exact .inr (h p' hq)
  · rw [if_neg hqp] at hq
    exact .inl hq

/-- A step of one process that leaves the path alone and gets it no lock. -/
theorem Inv.put (h : Inv s) {pid : Pid} {p : Option Process}
    (hheld : p.any (·.held) = true → s.holds pid = true)
    (hknown : ∀ p', p = some p' → Known (s.put pid p) p') : Inv (s.put pid p) :=
  h.of_quiet rfl rfl rfl (holds_put hheld) (known_put hknown)

/-- The same for a process that goes on to another file operation. -/
theorem Inv.enter (h : Inv s) {pid : Pid} {p : Process} (hp : s.process pid = some p)
    {phase : Phase} (hknown : Known (s.enter pid p phase) { p with phase }) :
    Inv (s.enter pid p phase) := by
  refine h.put ?_ fun p' hp' => ?_
  · intro hheld
    rw [State.holds, hp]
    exact hheld
  · cases hp'
    exact hknown

theorem Inv.drop (h : Inv s) {pid : Pid} (p : Process) :
    Inv (s.enter pid { p with held := false } .idle) := by
  refine h.put (fun hheld => by cases hheld) fun p' hp' => ?_
  cases hp'
  trivial

/-- A file is unlinked that is no holder's once the process has gone on. -/
theorem Inv.vacate (h : Inv s) {pid : Pid} {p : Process} {phase : Phase}
    (hholds : ∀ q, (s.unlink.enter pid p phase).holds q = false)
    (hknown : Known (s.unlink.enter pid p phase) { p with phase }) :
    Inv (s.unlink.enter pid p phase) := by
  refine h.of_vacated rfl rfl hholds fun q p' hq => known_put (fun p'' hp'' => ?_) q p' hq
  cases hp''
  exact hknown

/-- Unlinking what is no holder's leaves no holder. -/
theorem Inv.unlink_stale (h : Inv s) {pid : Pid} {p : Process} (hp : s.process pid = some p)
    (hfile : ∀ f, s.file = some f → liveLock s f = false) :
    Inv (s.unlink.enter pid p .creates) := by
  refine h.vacate (fun q => ?_) trivial
  cases hq : (s.unlink.enter pid p .creates).holds q with
  | false => rfl
  | true =>
      have hold : s.holds q = true := by
        refine holds_put (s := s.unlink) (fun hheld => ?_) q hq
        rw [State.holds]
        show (s.process pid).any (·.held) = true
        rw [hp]
        exact hheld
      rw [h.vacant hfile q] at hold
      cases hold

/-- A holder that unlinks its own lock and forgets it. -/
theorem Inv.unlink_own (h : Inv s) {pid : Pid} {p : Process} (hheld : s.holds pid = true) :
    Inv (s.unlink.enter pid { p with held := false } .idle) := by
  refine h.vacate (fun q => ?_) trivial
  cases hq : (s.unlink.enter pid { p with held := false } .idle).holds q with
  | false => rfl
  | true =>
      rw [State.holds, State.enter, put_process] at hq
      by_cases hqp : q = pid
      · rw [if_pos hqp] at hq
        cases hq
      · rw [if_neg hqp] at hq
        exact (hqp (h.exclusive q pid hq hheld)).elim

/-- The exclusive create on an empty path. -/
theorem Inv.create (h : Inv s) {pid : Pid} {p : Process} (hfile : s.file = none) :
    Inv ((s.create pid).enter pid { p with held := true } .idle) := by
  have hempty : ∀ q, s.holds q = false := h.vacant fun f hf => by
    rw [hfile] at hf
    cases hf
  refine ⟨?_, ?_, ?_, ?_⟩
  · intro q hq
    rw [State.holds, State.enter, put_process] at hq
    by_cases hqp : q = pid
    · rw [hqp]
      exact ⟨_, rfl, rfl⟩
    · rw [if_neg hqp] at hq
      have hold := hempty q
      rw [State.holds] at hold
      exact (Bool.false_ne_true (hold.symm.trans hq)).elim
  · intro f hf _
    cases hf
    show s.now - s.now < staleTimeoutMs
    rw [Nat.sub_self]
    decide
  · intro f hf
    cases hf
    exact Nat.lt_succ_self _
  · intro q p' hq
    rw [State.enter, put_process] at hq
    by_cases hqp : q = pid
    · rw [if_pos hqp] at hq
      cases hq
      trivial
    · rw [if_neg hqp] at hq
      refine (h.known q p' hq).mono (Nat.le_succ _) fun f hstamp hf _ => ?_
      cases hf
      exact (Nat.lt_irrefl _ hstamp).elim

theorem Inv.tick (h : Inv s) {ms : Nat} (hfresh : keepsFresh s (.tick ms) = true) :
    Inv { s with now := s.now + ms } := by
  refine ⟨h.owns, ?_, h.stamped, ?_⟩
  · intro f hf hlive
    have hf' : s.file = some f := hf
    have hlive' : liveLock s f = true := hlive
    simpa [keepsFresh, hf', hlive'] using hfresh
  · intro q p hq
    exact (h.known q p hq).mono (Nat.le_refl _) fun f _ hf hlive => ⟨hf, hlive⟩

/-- A young lock of a holder that may be asked about is not judged stale. -/
theorem isLive_of_liveLock {pid : Pid} {f : LockFile}
    (hfresh : s.now - f.mtimeMs < staleTimeoutMs) (hlive : liveLock s f = true)
    (hpermitted : ∀ holder : Nat, f.pid = some (holder : Int) → s.holds holder = true →
      signals.permitted pid holder = true) : isLive signals s pid f f = true := by
  rw [liveLock] at hlive
  cases hpid : f.pid with
  | none => simp [hpid] at hlive
  | some holder =>
      rw [hpid] at hlive
      cases holder with
      | negSucc n => cases hlive
      | ofNat holder =>
          have hholds : s.holds holder = true := hlive
          have hsome : (s.process holder).isSome = true := by
            rw [State.holds] at hholds
            cases hprocess : s.process holder with
            | none => simp [hprocess] at hholds
            | some _ => rfl
          simp only [isLive, hpid, Option.any_some, isProcessAlive, hsome, hfresh,
            hpermitted holder hpid hholds, decide_true, Bool.and_self, Bool.or_true]

/-! ## Every step, every run -/

theorem file_of_sees {fault : Bool} {f : LockFile} (h : s.sees fault = some f) :
    fault = false ∧ s.file = some f := by
  cases fault with
  | true => cases h
  | false => exact ⟨rfl, h⟩

theorem judged_permitted {pid : Pid} {read statted : LockFile} {held : Bool}
    (hp : s.process pid = some ⟨.judges read statted, held⟩)
    (hguard : takesOverJudged signals s (.step pid false) = true) (holder : Nat)
    (hpid : read.pid = some (holder : Int)) (hholds : s.holds holder = true) :
    signals.permitted pid holder = true := by
  simpa [takesOverJudged, hp, hpid, hholds] using hguard

theorem Inv.takeStep (h : Inv s) {pid : Pid} {p : Process} {fault : Bool}
    (hp : s.process pid = some p) (hguard : takesOverJudged signals s (.step pid fault) = true)
    (ht : takeStep signals s pid p fault = some t) : Inv t := by
  obtain ⟨phase, held⟩ := p
  cases phase with
  | idle => cases ht
  | checks =>
      cases ht
      apply h.enter hp
      split <;> trivial
  | reads =>
      simp only [FileLock.takeStep] at ht
      cases hf : s.sees fault with
      | none =>
          rw [hf] at ht
          cases ht
          exact h.enter hp trivial
      | some f =>
          rw [hf] at ht
          cases ht
          exact h.enter hp (h.stamped f (file_of_sees hf).2)
  | stats read =>
      have hread := h.known pid _ hp
      simp only [FileLock.takeStep] at ht
      cases hf : s.sees fault with
      | none =>
          rw [hf] at ht
          cases ht
          exact h.enter hp trivial
      | some f =>
          rw [hf] at ht
          cases ht
          exact h.enter hp hread
  | judges read statted =>
      have hread := h.known pid _ hp
      simp only [FileLock.takeStep] at ht
      cases fault with
      | true => cases ht
      | false =>
          cases hlive : isLive signals s pid read statted with
          | true =>
              rw [hlive] at ht
              cases ht
              exact h.enter hp trivial
          | false =>
              rw [hlive] at ht
              cases ht
              apply h.enter hp
              by_cases hsame : read = statted
              · rw [if_pos hsame]
                subst hsame
                refine ⟨hread, fun hf => ?_⟩
                by_contra hne
                have hheld : liveLock s read = true := by
                  refine liveLock_mono (fun q hq => ?_) (by simpa using hne)
                  refine holds_put (fun hheld => ?_) q hq
                  rw [State.holds, hp]
                  exact hheld
                have hjudged := isLive_of_liveLock (h.fresh read hf hheld) hheld
                  (judged_permitted hp hguard)
                rw [hlive] at hjudged
                cases hjudged
              · rw [if_neg hsame]
                trivial
  | unlinks judged =>
      have hjudged := h.known pid _ hp
      simp only [FileLock.takeStep] at ht
      cases hf : s.sees fault with
      | none =>
          rw [hf] at ht
          cases ht
          exact h.enter hp trivial
      | some f =>
          rw [hf] at ht
          cases ht
          obtain ⟨rfl, hfile⟩ := file_of_sees hf
          have hfound : judged = some f ∨ liveLock s f = false := by
            simpa [takesOverJudged, hp, hfile] using hguard
          refine h.unlink_stale hp fun g hg => ?_
          cases hfile.symm.trans hg
          rcases hfound with rfl | hdead
          · exact hjudged.2 hfile
          · exact hdead
  | unlinksAnyway =>
      simp only [FileLock.takeStep] at ht
      cases fault with
      | true =>
          cases ht
          exact h.enter hp trivial
      | false =>
          cases ht
          refine h.unlink_stale hp fun f hf => ?_
          simpa [takesOverJudged, hp, hf] using hguard
  | creates =>
      simp only [FileLock.takeStep] at ht
      cases hcond : fault || s.file.isSome with
      | true =>
          rw [hcond] at ht
          cases ht
          exact h.enter hp trivial
      | false =>
          rw [hcond] at ht
          cases ht
          simp only [Bool.or_eq_false_iff, Option.isSome_eq_false_iff, Option.isNone_iff_eq_none]
            at hcond
          exact h.create (p := ⟨.creates, held⟩) hcond.2
  | releaseReads =>
      have hheld := h.known pid _ hp
      simp only [FileLock.takeStep] at ht
      cases hf : s.sees fault with
      | none =>
          rw [hf] at ht
          cases ht
          exact h.drop ⟨.releaseReads, held⟩
      | some f =>
          rw [hf] at ht
          by_cases hpid : f.pid = some (pid : Int)
          · simp only [hpid, if_true, Option.some.injEq] at ht
            subst ht
            exact h.enter hp hheld
          · simp only [hpid, if_false, Option.some.injEq] at ht
            subst ht
            exact h.drop ⟨.releaseReads, held⟩
  | releaseUnlinks =>
      have hheld := h.known pid _ hp
      simp only [FileLock.takeStep] at ht
      cases fault with
      | true =>
          cases ht
          exact h.drop ⟨.releaseUnlinks, held⟩
      | false =>
          cases ht
          refine h.unlink_own (p := ⟨.releaseUnlinks, held⟩) ?_
          rw [State.holds, hp]
          exact hheld

theorem Inv.step (h : Inv s) {l : Label} (hfresh : keepsFresh s l = true)
    (hjudged : takesOverJudged signals s l = true) (ht : machine signals s l = some t) : Inv t := by
  cases l with
  | starts pid =>
      simp only [machine] at ht
      cases hp : s.process pid with
      | some p => simp [hp] at ht
      | none =>
          simp only [hp, Option.some.injEq] at ht
          subst ht
          refine h.put (fun hheld => by cases hheld) fun p' hp' => ?_
          cases hp'
          trivial
  | dies pid =>
      cases ht
      exact h.put (fun hheld => by cases hheld) fun p' hp' => by cases hp'
  | acquire pid =>
      simp only [machine] at ht
      cases hp : s.process pid with
      | none => simp [hp] at ht
      | some p =>
          simp only [hp, Option.ite_none_right_eq_some, Option.some.injEq] at ht
          obtain ⟨-, rfl⟩ := ht
          exact h.enter hp trivial
  | release pid =>
      simp only [machine] at ht
      cases hp : s.process pid with
      | none => simp [hp] at ht
      | some p =>
          simp only [hp, Option.ite_none_right_eq_some, Option.some.injEq] at ht
          obtain ⟨-, rfl⟩ := ht
          cases hheld : p.held with
          | true => exact h.enter hp hheld
          | false => exact h
  | step pid fault =>
      simp only [machine] at ht
      cases hp : s.process pid with
      | none => simp [hp] at ht
      | some p =>
          simp only [hp] at ht
          exact h.takeStep hp hjudged ht
  | tick ms =>
      cases ht
      exact h.tick hfresh

theorem inv_initial (now : Nat) (found : Option (Text × Nat)) : Inv (initial now found) := by
  refine ⟨?_, ?_, ?_, ?_⟩
  · intro pid h
    cases h
  · intro f _ hlive
    rw [liveLock] at hlive
    cases hpid : f.pid with
    | none => simp [hpid] at hlive
    | some pid =>
        rw [hpid] at hlive
        cases pid <;> cases hlive
  · intro f hf
    obtain ⟨g, -, rfl⟩ := Option.map_eq_some_iff.mp hf
    exact Nat.zero_lt_one
  · intro pid p h
    cases h

/-- Whatever the interleaving, one live process holds the lock, as long as no lock gets too
old while it is held and no `acquire` unlinks the lock of a live holder in place of the file
that it has judged. -/
theorem atMostOneHolder_always (signals : Signals) (now : Nat) (found : Option (Text × Nat))
    (labels : List Label)
    (h : (machine signals).Guarded
      (fun s l => keepsFresh s l = true ∧ takesOverJudged signals s l = true)
      (initial now found) labels) :
    (machine signals).Always AtMostOneHolder (initial now found) labels :=
  h.always (fun _ _ _ hs hl ht => hs.step hl.1 hl.2 ht) (fun _ hs => hs.exclusive)
    (inv_initial now found)

/-- All signals are permitted. -/
def oneUser : Signals := ⟨fun _ _ => true, fun _ => true⟩

/-- One process takes over the lock of a dead one and releases it, while another waits. -/
def takeOver : List Label :=
  [.starts 1, .starts 2, .acquire 1, .step 1 false, .step 1 false, .step 1 false, .step 1 false,
    .step 1 false, .step 1 false, .tick 1000, .acquire 2, .step 2 false, .step 2 false,
    .step 2 false, .step 2 false, .release 1, .step 1 false, .step 1 false]

theorem atMostOneHolder_takeOver :
    (machine oneUser).Always AtMostOneHolder (initial 5000 (some (Text.ofNat 99, 0))) takeOver :=
  atMostOneHolder_always oneUser 5000 (some (Text.ofNat 99, 0)) takeOver (by decide)

/-- Two processes judge one dead lock. The second unlinks what the first has created. -/
def staleTwice : List Label :=
  [.starts 1, .starts 2, .acquire 1, .step 1 false, .step 1 false, .step 1 false, .step 1 false,
    .acquire 2, .step 2 false, .step 2 false, .step 2 false, .step 2 false,
    .step 1 false, .step 1 false, .step 2 false, .step 2 false]

theorem not_atMostOneHolder_staleTwice :
    (machine oneUser).Guarded (fun s l => keepsFresh s l = true)
        (initial 5000 (some (Text.ofNat 99, 0))) staleTwice ∧
      ¬ (machine oneUser).Always AtMostOneHolder
        (initial 5000 (some (Text.ofNat 99, 0))) staleTwice := by
  refine ⟨by decide, fun h => ?_⟩
  have hend : ((machine oneUser).run (initial 5000 (some (Text.ofNat 99, 0))) staleTwice).any
      (fun t => t.holds 1 && t.holds 2) = true := by decide
  obtain ⟨t, ht, hboth⟩ := (Option.any_eq_true _ _).mp hend
  rw [Bool.and_eq_true] at hboth
  exact absurd (h.last ht 1 2 hboth.1 hboth.2) (by decide)

end AfyxGraph.Db.FileLock
