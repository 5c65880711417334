import AfyxGraph.Core.Transition
import Mathlib.Logic.Function.Basic

/-! # The project writer lock

`writer.pid` is created by linking a complete temporary file into place, or, on a file
system without hard links, by an exclusive create and a write. The temporary file has the
pid in its name, so only the link is seen by other processes. A record that cannot be read
or whose process is dead is cleared by `clearIfStillStale`, and the acquire retried once.
Every file operation is a step of its own.
-/

namespace AfyxGraph.Mcp.WriterLock

open AfyxGraph.Core

abbrev Pid := Nat

structure WriterLockInfo where
  pid : Int
  mode : String
  startedAt : Nat
  deriving DecidableEq, Repr

/-- What is in a lock file. An empty file is told apart by the process that has created it
and is to write it. -/
inductive Content where
  | record (info : WriterLockInfo)
  | unreadable
  | unwritten (pid : Pid)
  deriving DecidableEq, Repr

/-- `decodeWriterLockInfo` of the text of the file -/
def Content.decode : Content → Option WriterLockInfo
  | .record info => some info
  | .unreadable | .unwritten _ => none

/-- The stamp tells a file from every other one that was ever at the path. -/
structure LockFile where
  stamp : Nat
  content : Content
  deriving DecidableEq, Repr

/-- The file operation, or the question whether a process is alive, that comes next. -/
inductive Phase where
  | idle
  | writesTemp (info : WriterLockInfo) (retry : Bool)
  | links (info : WriterLockInfo) (retry : Bool)
  | opensExclusive (info : WriterLockInfo) (retry : Bool)
  | writesExclusive (info : WriterLockInfo) (stamp : Nat)
  | readsExisting (info : WriterLockInfo) (retry : Bool)
  | judges (info : WriterLockInfo) (existing : Option WriterLockInfo)
  | clearReads (info : WriterLockInfo) (believedStalePid : Option Int)
  | clearJudges (info : WriterLockInfo) (believedStalePid : Option Int) (read : LockFile)
  | clearUnlinks (info : WriterLockInfo) (read : LockFile)
  | releaseChecks
  | releaseReads
  | releaseUnlinks
  deriving DecidableEq, Repr

/-- `held`: has received `acquired` and not yet released. -/
structure Process where
  phase : Phase := .idle
  held : Bool := false
  deriving DecidableEq, Repr

/-- `used` are the pids of the processes that ever ran. -/
structure State where
  file : Option LockFile
  created : Nat
  process : Pid → Option Process
  used : Pid → Bool

inductive Label where
  | starts (pid : Pid)
  | dies (pid : Pid)
  | tryAcquire (pid : Pid) (mode : String) (startedAt : Nat)
  | release (pid : Pid)
  | step (pid : Pid) (fault : Bool)
  deriving DecidableEq, Repr

namespace State

def put (s : State) (pid : Pid) (p : Option Process) : State :=
  { s with process := Function.update s.process pid p }

def enter (s : State) (pid : Pid) (p : Process) (phase : Phase) : State :=
  s.put pid (some { p with phase })

/-- `{ kind: 'acquired' }` -/
def acquired (s : State) (pid : Pid) : State := s.put pid (some ⟨.idle, true⟩)

def released (s : State) (pid : Pid) : State := s.put pid (some ⟨.idle, false⟩)

def unlink (s : State) : State := { s with file := none }

def create (s : State) (content : Content) : State :=
  { s with file := some ⟨s.created, content⟩, created := s.created + 1 }

/-- What a read that does not fail finds. -/
def sees (s : State) (fault : Bool) : Option LockFile := if fault then none else s.file

def holds (s : State) (pid : Pid) : Bool := (s.process pid).any (·.held)

/-- A process that may not be signalled is alive as well. -/
def isProcessAlive (s : State) : Int → Bool
  | .ofNat pid => (s.process pid).isSome
  | .negSucc _ => false

def isStaleHolder (s : State) (holder : Option WriterLockInfo) : Bool :=
  holder.all fun info => info.pid ≤ 0 || !s.isProcessAlive info.pid

end State

/-- The steps of `acquireAtomicLockfile`. A fault of the link is an error other than an
existing target. -/
def acquireAtomicLockfile (s : State) (pid : Pid) (p : Process) (fault : Bool) : Option State :=
  match p.phase with
  | .writesTemp info retry =>
      if fault then some (s.enter pid p .idle) else some (s.enter pid p (.links info retry))
  | .links info retry =>
      if fault then some (s.enter pid p (.opensExclusive info retry))
      else if s.file.isSome then some (s.enter pid p (.readsExisting info retry))
      else some ((s.create (.record info)).acquired pid)
  | .opensExclusive info retry =>
      if fault then some (s.enter pid p .idle)
      else if s.file.isSome then some (s.enter pid p (.readsExisting info retry))
      else some ((s.create (.unwritten pid)).enter pid p (.writesExclusive info s.created))
  | .writesExclusive info stamp =>
      if fault then some (s.enter pid p .idle)
      else if s.file = some ⟨stamp, .unwritten pid⟩ then
        some ({ s with file := some ⟨stamp, .record info⟩ }.acquired pid)
      else some (s.acquired pid)
  | _ => none

/-- The steps of `clearIfStillStale`; whatever it does, the acquire is retried. -/
def clearIfStillStale (s : State) (pid : Pid) (p : Process) (fault : Bool) : Option State :=
  match p.phase with
  | .clearReads info believedStalePid =>
      match s.sees fault with
      | some read => some (s.enter pid p (.clearJudges info believedStalePid read))
      | none => some (s.enter pid p (.writesTemp info true))
  | .clearJudges info believedStalePid read =>
      if fault then none
      else if read.content.decode.any fun current => some current.pid != believedStalePid then
        some (s.enter pid p (.writesTemp info true))
      else if s.isStaleHolder read.content.decode then
        some (s.enter pid p (.clearUnlinks info read))
      else some (s.enter pid p (.writesTemp info true))
  | .clearUnlinks info _ =>
      some ((if fault then s else s.unlink).enter pid p (.writesTemp info true))
  | _ => none

/-- The steps of `releaseWriterLock`. -/
def releaseWriterLock (s : State) (pid : Pid) (p : Process) (fault : Bool) : Option State :=
  match p.phase with
  | .releaseChecks =>
      if (s.sees fault).isSome then some (s.enter pid p .releaseReads) else some (s.released pid)
  | .releaseReads =>
      match s.sees fault with
      | some read =>
          if read.content.decode.any fun info => info.pid = (pid : Int) then
            some (s.enter pid p .releaseUnlinks)
          else some (s.released pid)
      | none => some (s.released pid)
  | .releaseUnlinks => some ((if fault then s else s.unlink).released pid)
  | _ => none

/-- One file operation. `tryAcquireWriterLock` itself reads the existing record and asks
whether its holder is stale. -/
def takeStep (s : State) (pid : Pid) (p : Process) (fault : Bool) : Option State :=
  match p.phase with
  | .idle => none
  | .readsExisting info retry =>
      let existing := (s.sees fault).bind fun read => read.content.decode
      if retry then some (s.enter pid p .idle)
      else if existing.any fun holder => holder.pid = (pid : Int) then some (s.acquired pid)
      else some (s.enter pid p (.judges info existing))
  | .judges info existing =>
      if fault then none
      else if s.isStaleHolder existing then
        some (s.enter pid p (.clearReads info (existing.map (·.pid))))
      else some (s.enter pid p .idle)
  | .writesTemp .. | .links .. | .opensExclusive .. | .writesExclusive .. =>
      acquireAtomicLockfile s pid p fault
  | .clearReads .. | .clearJudges .. | .clearUnlinks .. => clearIfStillStale s pid p fault
  | .releaseChecks | .releaseReads | .releaseUnlinks => releaseWriterLock s pid p fault

/-- All processes on the lock of one project. Pids are positive and not reused. -/
def machine : Machine State Label := fun s l =>
  match l with
  | .starts pid =>
      if pid = 0 || s.used pid then none
      else some { s.put pid (some {}) with used := Function.update s.used pid true }
  | .dies pid => some (s.put pid none)
  | .tryAcquire pid mode startedAt =>
      match s.process pid with
      | some p =>
          if p.phase = .idle then some (s.enter pid p (.writesTemp ⟨pid, mode, startedAt⟩ false))
          else none
      | none => none
  | .release pid =>
      match s.process pid with
      | some p => if p.phase = .idle then some (s.enter pid p .releaseChecks) else none
      | none => none
  | .step pid fault =>
      match s.process pid with
      | some p => takeStep s pid p fault
      | none => none

/-- No process of this boot has started. A file that is found names none of them. -/
def initial (found : Option (Option WriterLockInfo)) : State where
  file := found.map fun info => ⟨0, info.elim .unreadable .record⟩
  created := 1
  process := fun _ => none
  used pid := found.any fun info => info.any fun info => info.pid = (pid : Int)

/-! ## Exclusion -/

def names (file : Option LockFile) (pid : Pid) : Bool :=
  file.any fun f => f.content.decode.any fun info => info.pid = (pid : Int)

/-- One live process at most has the lock, and its record is at the path. -/
structure Exclusive (s : State) : Prop where
  atMostOne : ∀ p q, s.holds p = true → s.holds q = true → p = q
  recorded : ∀ p, s.holds p = true → names s.file p = true

/-- The file is the record of a live process, or is about to become one. -/
def inUse (s : State) (f : LockFile) : Bool :=
  match f.content with
  | .record info => s.isProcessAlive info.pid
  | .unreadable => false
  | .unwritten pid => (s.process pid).any fun p =>
      match p.phase with
      | .writesExclusive _ stamp => stamp = f.stamp
      | _ => false

/-- `clearIfStillStale` unlinks the very record it has read, or a file that is not in use. -/
def clearsWhatItRead (s : State) : Label → Bool
  | .step pid false =>
      (s.process pid).all fun p =>
        match p.phase with
        | .clearUnlinks _ read =>
            s.file.all fun f => (f = read && read.content.decode.isSome) || !inUse s f
        | _ => true
  | _ => true

/-! ## What a state keeps -/

variable {s t : State}

/-- The process whose file it is. -/
def Content.owner : Content → Option Int
  | .record info => some info.pid
  | .unreadable => none
  | .unwritten pid => some pid

/-- The record a process is acquiring with. -/
def Phase.info : Phase → Option WriterLockInfo
  | .idle | .releaseChecks | .releaseReads | .releaseUnlinks => none
  | .writesTemp info _ | .links info _ | .opensExclusive info _ | .writesExclusive info _
  | .readsExisting info _ | .judges info _ | .clearReads info _ | .clearJudges info _ _
  | .clearUnlinks info _ => some info

/-- What the file must be for a process to hold the lock, to complete its record, or to
unlink its own. -/
def Backed (file : Option LockFile) (pid : Pid) (p : Process) : Prop :=
  (p.held = true → names file pid = true) ∧
    match p.phase with
    | .writesExclusive _ stamp => file = some ⟨stamp, .unwritten pid⟩
    | .releaseUnlinks => names file pid = true
    | _ => True

/-- The process of a record has run. -/
def Recorded (s : State) (content : Content) : Prop :=
  ∀ (info : WriterLockInfo) (pid : Pid), content = .record info → info.pid = (pid : Int) →
    s.used pid = true

/-- The process of a record has run and does not any more. -/
def Dead (s : State) (content : Content) : Prop :=
  ∀ (info : WriterLockInfo) (pid : Pid), content = .record info → info.pid = (pid : Int) →
    s.used pid = true ∧ s.process pid = none

def Known (s : State) (p : Process) : Prop :=
  match p.phase with
  | .clearJudges _ _ read => Recorded s read.content
  | .clearUnlinks _ read => Dead s read.content
  | _ => True

structure Inv (s : State) : Prop where
  backed : ∀ pid p, s.process pid = some p → Backed s.file pid p
  recorded : ∀ f, s.file = some f → Recorded s f.content
  known : ∀ pid p, s.process pid = some p → Known s p
  own : ∀ pid p info, s.process pid = some p → p.phase.info = some info → info.pid = (pid : Int)
  started : ∀ pid p, s.process pid = some p → s.used pid = true ∧ pid ≠ 0

theorem names_iff {file : Option LockFile} {pid : Pid} : names file pid = true ↔
    ∃ f info, file = some f ∧ f.content = .record info ∧ info.pid = (pid : Int) := by
  cases file with
  | none => simp [names]
  | some f =>
      obtain ⟨stamp, content⟩ := f
      cases content <;> simp [names, Content.decode]

/-- A process that needs the file to be as it is. -/
def Relies (p : Process) : Prop :=
  p.held = true ∨ (∃ info stamp, p.phase = .writesExclusive info stamp) ∨ p.phase = .releaseUnlinks

theorem Backed.of_not_relies {file : Option LockFile} {pid : Pid} {p : Process}
    (h : ¬ Relies p) : Backed file pid p := by
  simp only [Relies, not_or, not_exists] at h
  obtain ⟨hheld, hwrites, hunlinks⟩ := h
  obtain ⟨phase, held⟩ := p
  refine ⟨fun hp => (hheld hp).elim, ?_⟩
  cases phase with
  | writesExclusive info stamp => exact (hwrites info stamp rfl).elim
  | releaseUnlinks => exact (hunlinks rfl).elim
  | _ => trivial

/-- What a process relies on is in use, and its own. -/
theorem Inv.relied (h : Inv s) {pid : Pid} {p : Process} (hp : s.process pid = some p)
    (hrelies : Relies p) :
    ∃ f, s.file = some f ∧ inUse s f = true ∧ f.content.owner = some (pid : Int) := by
  obtain ⟨hheld, hphase⟩ := h.backed pid p hp
  have hnamed : names s.file pid = true →
      ∃ f, s.file = some f ∧ inUse s f = true ∧ f.content.owner = some (pid : Int) := by
    intro hnames
    obtain ⟨f, info, hf, hcontent, hpid⟩ := names_iff.mp hnames
    refine ⟨f, hf, ?_, by rw [hcontent, Content.owner, hpid]⟩
    rw [inUse, hcontent]
    show s.isProcessAlive info.pid = true
    rw [hpid]
    show (s.process pid).isSome = true
    rw [hp]
    rfl
  rcases hrelies with hholds | ⟨info, stamp, hwrites⟩ | hunlinks
  · exact hnamed (hheld hholds)
  · rw [hwrites] at hphase
    refine ⟨_, hphase, ?_, rfl⟩
    simp [inUse, hp, hwrites]
  · rw [hunlinks] at hphase
    exact hnamed hphase

namespace Inv

theorem exclusive (h : Inv s) : Exclusive s := by
  have hrecorded : ∀ p, s.holds p = true → names s.file p = true := by
    intro p hp
    rw [State.holds, Option.any_eq_true] at hp
    obtain ⟨process, hprocess, hheld⟩ := hp
    exact (h.backed p process hprocess).1 hheld
  refine ⟨fun p q hp hq => ?_, hrecorded⟩
  obtain ⟨f, info, hf, hcontent, hpid⟩ := names_iff.mp (hrecorded p hp)
  obtain ⟨g, info', hg, hcontent', hpid'⟩ := names_iff.mp (hrecorded q hq)
  cases hf.symm.trans hg
  cases hcontent.symm.trans hcontent'
  exact Int.ofNat.inj (hpid.symm.trans hpid')

/-- A live process goes on or dies, and the file may have changed. -/
theorem update (h : Inv s) {pid : Pid} {p : Process} (hp : s.process pid = some p)
    (p' : Option Process) (hprocess : t.process = Function.update s.process pid p')
    (hused : t.used = s.used)
    (hothers : ∀ q r, q ≠ pid → s.process q = some r → Backed t.file q r)
    (hfile : ∀ f, t.file = some f → Recorded s f.content)
    (hself : ∀ r, p' = some r → Backed t.file pid r ∧ Known t r ∧
      ∀ info, r.phase.info = some info → info.pid = (pid : Int)) : Inv t := by
  have hat : ∀ q r, t.process q = some r →
      (q = pid ∧ p' = some r) ∨ (q ≠ pid ∧ s.process q = some r) := by
    intro q r hq
    rw [hprocess, Function.update_apply] at hq
    by_cases hqp : q = pid
    · exact .inl ⟨hqp, by rwa [if_pos hqp] at hq⟩
    · exact .inr ⟨hqp, by rwa [if_neg hqp] at hq⟩
  have hdead : ∀ content, Dead s content → Dead t content := by
    intro content hdead info q hcontent hq
    obtain ⟨hwas, hnone⟩ := hdead info q hcontent hq
    refine ⟨by rw [hused]; exact hwas, ?_⟩
    rw [hprocess, Function.update_apply, if_neg, hnone]
    rintro rfl
    rw [hp] at hnone
    cases hnone
  refine ⟨?_, ?_, ?_, ?_, ?_⟩
  · intro q r hq
    rcases hat q r hq with ⟨rfl, hr⟩ | ⟨hne, hr⟩
    · exact (hself r hr).1
    · exact hothers q r hne hr
  · intro f hf info q
    rw [hused]
    exact hfile f hf info q
  · intro q r hq
    rcases hat q r hq with ⟨rfl, hr⟩ | ⟨hne, hr⟩
    · exact (hself r hr).2.1
    · have hold := h.known q r hr
      obtain ⟨phase, held⟩ := r
      cases phase with
      | clearJudges info believed read =>
          intro info q
          rw [hused]
          exact hold info q
      | clearUnlinks info read => exact hdead _ hold
      | _ => trivial
  · intro q r info hq hinfo
    rcases hat q r hq with ⟨rfl, hr⟩ | ⟨hne, hr⟩
    · exact (hself r hr).2.2 info hinfo
    · exact h.own q r info hr hinfo
  · intro q r hq
    rw [hused]
    rcases hat q r hq with ⟨rfl, hr⟩ | ⟨hne, hr⟩
    · exact h.started q p hp
    · exact h.started q r hr

/-- A step of one process that leaves the file alone. -/
theorem put (h : Inv s) {pid : Pid} {p : Process} (hp : s.process pid = some p)
    (p' : Option Process) (hself : ∀ r, p' = some r → Backed s.file pid r ∧
      Known (s.put pid p') r ∧ ∀ info, r.phase.info = some info → info.pid = (pid : Int)) :
    Inv (s.put pid p') :=
  h.update hp p' rfl rfl (fun q r _ hr => h.backed q r hr) h.recorded hself

/-- The next operation of a process relies on nothing new. -/
theorem enter (h : Inv s) {pid : Pid} {p : Process} (hp : s.process pid = some p) {phase : Phase}
    (hrelies : ¬ Relies ⟨phase, false⟩) (hknown : Known (s.enter pid p phase) ⟨phase, p.held⟩)
    (hown : ∀ info, phase.info = some info → p.phase.info = some info) :
    Inv (s.enter pid p phase) := by
  refine h.put hp _ fun r hr => ?_
  cases hr
  refine ⟨⟨(h.backed pid p hp).1, ?_⟩, hknown, fun info hinfo => ?_⟩
  · have hbacked : Backed s.file pid ⟨phase, false⟩ := Backed.of_not_relies hrelies
    exact hbacked.2
  · exact h.own pid p info hp (hown info hinfo)

/-- No other process relies on a file that is not in use, or that is the process's own. -/
theorem alone (h : Inv s) {pid q : Pid} {r : Process} (hq : s.process q = some r) (hne : q ≠ pid)
    (hfile : ∀ f, s.file = some f →
      inUse s f = false ∨ f.content.owner = some (pid : Int)) : ¬ Relies r := by
  intro hrelies
  obtain ⟨f, hf, huse, howner⟩ := h.relied hq hrelies
  rcases hfile f hf with hfree | hown
  · rw [huse] at hfree
    cases hfree
  · rw [howner, Option.some.injEq] at hown
    exact hne (Int.ofNat.inj hown)

/-- The process gets the lock with its own record at the path. -/
theorem acquire (h : Inv s) {pid : Pid} {p : Process} (hp : s.process pid = some p)
    (hprocess : t.process = Function.update s.process pid (some ⟨.idle, true⟩))
    (hused : t.used = s.used) (hnames : names t.file pid = true)
    (hothers : ∀ q r, q ≠ pid → s.process q = some r → Backed t.file q r) : Inv t := by
  refine h.update hp _ hprocess hused hothers ?_ fun r hr => ?_
  · intro f hf info q hcontent hq
    obtain ⟨g, info', hg, hcontent', hpid⟩ := names_iff.mp hnames
    cases hf.symm.trans hg
    cases hcontent.symm.trans hcontent'
    obtain rfl : q = pid := Int.ofNat.inj (hq.symm.trans hpid)
    exact (h.started q p hp).1
  · cases hr
    refine ⟨⟨fun _ => hnames, trivial⟩, trivial, fun info hinfo => ?_⟩
    cases hinfo

theorem release (h : Inv s) {pid : Pid} {p : Process} (hp : s.process pid = some p) :
    Inv (s.released pid) := by
  refine h.put hp _ fun r hr => ?_
  cases hr
  refine ⟨⟨fun hheld => ?_, trivial⟩, trivial, fun info hinfo => ?_⟩
  · cases hheld
  · cases hinfo

/-- A file nobody else relies on is unlinked, and the process does not rely on it any more. -/
theorem unlink (h : Inv s) {pid : Pid} {p p' : Process} (hp : s.process pid = some p)
    (hfile : ∀ f, s.file = some f →
      inUse s f = false ∨ f.content.owner = some (pid : Int))
    (hrelies : ¬ Relies p') (hknown : Known (s.unlink.put pid (some p')) p')
    (hown : ∀ info, p'.phase.info = some info → p.phase.info = some info) :
    Inv (s.unlink.put pid (some p')) := by
  refine h.update hp _ rfl rfl (fun q r hne hr => ?_) (fun f hf => ?_) fun r hr => ?_
  · exact Backed.of_not_relies (h.alone hr hne hfile)
  · cases hf
  · cases hr
    exact ⟨Backed.of_not_relies hrelies, hknown, fun info hinfo => h.own pid p info hp (hown info hinfo)⟩

end Inv

/-! ## The steps of a process -/

theorem not_relies {phase : Phase} (hwrites : ∀ info stamp, phase ≠ .writesExclusive info stamp)
    (hunlinks : phase ≠ .releaseUnlinks) : ¬ Relies ⟨phase, false⟩ := by
  rintro (hheld | ⟨info, stamp, h⟩ | h)
  · cases hheld
  · exact hwrites info stamp h
  · exact hunlinks h

theorem file_of_sees {fault : Bool} {f : LockFile} (h : s.sees fault = some f) :
    fault = false ∧ s.file = some f := by
  cases fault with
  | true => cases h
  | false => exact ⟨rfl, h⟩

theorem Inv.acquireAtomicLockfile (h : Inv s) {pid : Pid} {p : Process} {fault : Bool}
    (hp : s.process pid = some p)
    (ht : WriterLock.acquireAtomicLockfile s pid p fault = some t) : Inv t := by
  obtain ⟨phase, held⟩ := p
  have hempty : s.file.isSome = false → ∀ f, s.file = some f →
      inUse s f = false ∨ f.content.owner = some (pid : Int) := by
    intro hnone f hf
    rw [hf] at hnone
    cases hnone
  cases phase with
  | writesTemp info retry =>
      simp only [WriterLock.acquireAtomicLockfile] at ht
      cases fault <;> cases ht
      · exact h.enter hp (not_relies nofun nofun) trivial fun _ hinfo => hinfo
      · exact h.enter hp (not_relies nofun nofun) trivial nofun
  | links info retry =>
      have hpid : info.pid = (pid : Int) := h.own pid _ info hp rfl
      simp only [WriterLock.acquireAtomicLockfile] at ht
      cases fault with
      | true =>
          cases ht
          exact h.enter hp (not_relies nofun nofun) trivial fun _ hinfo => hinfo
      | false =>
          cases hsome : s.file.isSome with
          | true =>
              rw [hsome] at ht
              cases ht
              exact h.enter hp (not_relies nofun nofun) trivial fun _ hinfo => hinfo
          | false =>
              rw [hsome] at ht
              cases ht
              refine h.acquire hp rfl rfl (names_iff.mpr ⟨_, info, rfl, rfl, hpid⟩) ?_
              intro q r hne hr
              exact Backed.of_not_relies (h.alone hr hne (hempty hsome))
  | opensExclusive info retry =>
      simp only [WriterLock.acquireAtomicLockfile] at ht
      cases fault with
      | true =>
          cases ht
          exact h.enter hp (not_relies nofun nofun) trivial nofun
      | false =>
          cases hsome : s.file.isSome with
          | true =>
              rw [hsome] at ht
              cases ht
              exact h.enter hp (not_relies nofun nofun) trivial fun _ hinfo => hinfo
          | false =>
              rw [hsome] at ht
              cases ht
              refine h.update hp _ rfl rfl ?_ ?_ fun r hr => ?_
              · intro q r hne hr
                exact Backed.of_not_relies (h.alone hr hne (hempty hsome))
              · intro f hf
                cases hf
                exact nofun
              · cases hr
                refine ⟨⟨fun hheld => ?_, rfl⟩, trivial, fun info' hinfo => ?_⟩
                · obtain ⟨f, hf, -⟩ := h.relied hp (.inl hheld)
                  rw [hf] at hsome
                  cases hsome
                · exact h.own pid _ info' hp hinfo
  | writesExclusive info stamp =>
      have hpid : info.pid = (pid : Int) := h.own pid _ info hp rfl
      have hfile : s.file = some ⟨stamp, .unwritten pid⟩ := (h.backed pid _ hp).2
      simp only [WriterLock.acquireAtomicLockfile] at ht
      cases fault with
      | true =>
          cases ht
          exact h.enter hp (not_relies nofun nofun) trivial nofun
      | false =>
          rw [if_neg Bool.false_ne_true, if_pos hfile] at ht
          cases ht
          refine h.acquire hp rfl rfl (names_iff.mpr ⟨_, info, rfl, rfl, hpid⟩) ?_
          intro q r hne hr
          refine Backed.of_not_relies (h.alone hr hne fun f hf => .inr ?_)
          cases hfile.symm.trans hf
          rfl
  | _ => cases ht

/-- A record judged stale is one of a dead process. -/
theorem Inv.dead_of_stale (h : Inv s) {content : Content} {pid : Pid} {p p' : Process}
    (hp : s.process pid = some p) (hrecorded : Recorded s content)
    (hstale : s.isStaleHolder content.decode = true) : Dead (s.put pid (some p')) content := by
  intro info q hcontent hq
  refine ⟨hrecorded info q hcontent hq, ?_⟩
  have hnone : s.process q = none := by
    rw [hcontent] at hstale
    simp only [Content.decode, State.isStaleHolder, Option.all_some, hq, Bool.or_eq_true,
      decide_eq_true_eq, Bool.not_eq_true'] at hstale
    cases hprocess : s.process q with
    | none => rfl
    | some r =>
        rcases hstale with hzero | hgone
        · have hle : q ≤ 0 := Int.ofNat_le.mp hzero
          exact ((h.started q r hprocess).2 (Nat.le_zero.mp hle)).elim
        · simp [State.isProcessAlive, hprocess] at hgone
  show Function.update s.process pid (some p') q = none
  rw [Function.update_apply, if_neg, hnone]
  rintro rfl
  rw [hp] at hnone
  cases hnone

theorem Dead.not_inUse {f : LockFile} (h : Dead s f.content)
    (hsome : f.content.decode.isSome = true) : inUse s f = false := by
  obtain ⟨stamp, content⟩ := f
  cases content with
  | unreadable => rfl
  | unwritten pid => cases hsome
  | record info =>
      show s.isProcessAlive info.pid = false
      cases hpid : info.pid with
      | negSucc n => rfl
      | ofNat pid =>
          obtain ⟨-, hnone⟩ := h info pid rfl hpid
          show (s.process pid).isSome = false
          rw [hnone]
          rfl

theorem Inv.clearIfStillStale (h : Inv s) {pid : Pid} {p : Process} {fault : Bool}
    (hp : s.process pid = some p) (hguard : clearsWhatItRead s (.step pid fault) = true)
    (ht : WriterLock.clearIfStillStale s pid p fault = some t) : Inv t := by
  obtain ⟨phase, held⟩ := p
  cases phase with
  | clearReads info believed =>
      simp only [WriterLock.clearIfStillStale] at ht
      cases hf : s.sees fault with
      | none =>
          rw [hf] at ht
          cases ht
          exact h.enter hp (not_relies nofun nofun) trivial fun _ hinfo => hinfo
      | some read =>
          rw [hf] at ht
          cases ht
          exact h.enter hp (not_relies nofun nofun) (h.recorded read (file_of_sees hf).2)
            fun _ hinfo => hinfo
  | clearJudges info believed read =>
      have hrecorded : Recorded s read.content := h.known pid _ hp
      simp only [WriterLock.clearIfStillStale] at ht
      cases fault with
      | true => cases ht
      | false =>
          rw [if_neg Bool.false_ne_true] at ht
          split at ht
          · cases ht
            exact h.enter hp (not_relies nofun nofun) trivial fun _ hinfo => hinfo
          · split at ht
            · rename_i hstale
              cases ht
              refine h.enter hp (not_relies nofun nofun) ?_ fun _ hinfo => hinfo
              exact h.dead_of_stale hp hrecorded hstale
            · cases ht
              exact h.enter hp (not_relies nofun nofun) trivial fun _ hinfo => hinfo
  | clearUnlinks info read =>
      have hdead : Dead s read.content := h.known pid _ hp
      simp only [WriterLock.clearIfStillStale] at ht
      cases fault with
      | true =>
          cases ht
          exact h.enter hp (not_relies nofun nofun) trivial fun _ hinfo => hinfo
      | false =>
          cases ht
          have hfile : ∀ f, s.file = some f → inUse s f = false := by
            intro f hf
            have hread : (f = read ∧ read.content.decode.isSome = true) ∨ inUse s f = false := by
              simpa [clearsWhatItRead, hp, hf] using hguard
            rcases hread with ⟨rfl, hsome⟩ | hfree
            · exact hdead.not_inUse hsome
            · exact hfree
          refine h.unlink hp (fun f hf => .inl (hfile f hf)) ?_ trivial fun _ hinfo => hinfo
          rintro (hheld | ⟨_, _, hphase⟩ | hphase)
          · obtain ⟨f, hf, huse, -⟩ := h.relied hp (.inl hheld)
            rw [hfile f hf] at huse
            cases huse
          · cases hphase
          · cases hphase
  | _ => cases ht

theorem Inv.releaseWriterLock (h : Inv s) {pid : Pid} {p : Process} {fault : Bool}
    (hp : s.process pid = some p)
    (ht : WriterLock.releaseWriterLock s pid p fault = some t) : Inv t := by
  obtain ⟨phase, held⟩ := p
  cases phase with
  | releaseChecks =>
      simp only [WriterLock.releaseWriterLock] at ht
      split at ht
      · cases ht
        exact h.enter hp (not_relies nofun nofun) trivial nofun
      · cases ht
        exact h.release hp
  | releaseReads =>
      simp only [WriterLock.releaseWriterLock] at ht
      cases hf : s.sees fault with
      | none =>
          rw [hf] at ht
          cases ht
          exact h.release hp
      | some read =>
          rw [hf] at ht
          cases hown : read.content.decode.any fun info => info.pid = (pid : Int) with
          | false =>
              simp only [hown, Bool.false_eq_true, if_false, Option.some.injEq] at ht
              subst ht
              exact h.release hp
          | true =>
              simp only [hown, if_true, Option.some.injEq] at ht
              subst ht
              refine h.put hp _ fun r hr => ?_
              cases hr
              refine ⟨⟨(h.backed pid _ hp).1, ?_⟩, trivial, nofun⟩
              show names s.file pid = true
              rw [names, (file_of_sees hf).2]
              exact hown
  | releaseUnlinks =>
      simp only [WriterLock.releaseWriterLock] at ht
      cases fault with
      | true =>
          cases ht
          exact h.release hp
      | false =>
          cases ht
          have hnames : names s.file pid = true := (h.backed pid _ hp).2
          refine h.unlink hp (fun f hf => .inr ?_) (not_relies nofun nofun) trivial nofun
          obtain ⟨g, info, hg, hcontent, hpid⟩ := names_iff.mp hnames
          cases hf.symm.trans hg
          rw [hcontent, Content.owner, hpid]
  | _ => cases ht

theorem Inv.takeStep (h : Inv s) {pid : Pid} {p : Process} {fault : Bool}
    (hp : s.process pid = some p) (hguard : clearsWhatItRead s (.step pid fault) = true)
    (ht : WriterLock.takeStep s pid p fault = some t) : Inv t := by
  obtain ⟨phase, held⟩ := p
  cases phase with
  | idle => cases ht
  | readsExisting info retry =>
      simp only [WriterLock.takeStep] at ht
      cases retry with
      | true =>
          cases ht
          exact h.enter hp (not_relies nofun nofun) trivial nofun
      | false =>
          rw [if_neg Bool.false_ne_true] at ht
          split at ht
          · rename_i hown
            cases ht
            have hnames : names s.file pid = true := by
              cases hf : s.sees fault with
              | none => simp [hf] at hown
              | some read =>
                  rw [hf] at hown
                  rw [names, (file_of_sees hf).2]
                  exact hown
            exact h.acquire hp rfl rfl hnames fun q r _ hr => h.backed q r hr
          · cases ht
            exact h.enter hp (not_relies nofun nofun) trivial fun _ hinfo => hinfo
  | judges info existing =>
      simp only [WriterLock.takeStep] at ht
      cases fault with
      | true => cases ht
      | false =>
          rw [if_neg Bool.false_ne_true] at ht
          split at ht
          · cases ht
            exact h.enter hp (not_relies nofun nofun) trivial fun _ hinfo => hinfo
          · cases ht
            exact h.enter hp (not_relies nofun nofun) trivial nofun
  | writesTemp info retry => exact h.acquireAtomicLockfile hp ht
  | links info retry => exact h.acquireAtomicLockfile hp ht
  | opensExclusive info retry => exact h.acquireAtomicLockfile hp ht
  | writesExclusive info stamp => exact h.acquireAtomicLockfile hp ht
  | clearReads info believed => exact h.clearIfStillStale hp hguard ht
  | clearJudges info believed read => exact h.clearIfStillStale hp hguard ht
  | clearUnlinks info read => exact h.clearIfStillStale hp hguard ht
  | releaseChecks => exact h.releaseWriterLock hp ht
  | releaseReads => exact h.releaseWriterLock hp ht
  | releaseUnlinks => exact h.releaseWriterLock hp ht

/-! ## Every step, every run -/

/-- A process that starts has a pid that no file names as the one of a dead process. -/
theorem Inv.start (h : Inv s) {pid : Pid} (hpos : pid ≠ 0) (hnew : s.used pid = false) :
    Inv { s.put pid (some {}) with used := Function.update s.used pid true } := by
  have hused : ∀ q, s.used q = true → Function.update s.used pid true q = true := by
    intro q hq
    rw [Function.update_apply]
    split
    · rfl
    · exact hq
  have hat : ∀ q r, Function.update s.process pid (some {}) q = some r →
      (q = pid ∧ r = {}) ∨ s.process q = some r := by
    intro q r hq
    rw [Function.update_apply] at hq
    by_cases hqp : q = pid
    · rw [if_pos hqp, Option.some.injEq] at hq
      exact .inl ⟨hqp, hq.symm⟩
    · exact .inr (by rwa [if_neg hqp] at hq)
  refine ⟨?_, ?_, ?_, ?_, ?_⟩
  · intro q r hq
    rcases hat q r hq with ⟨rfl, rfl⟩ | hr
    · exact ⟨nofun, trivial⟩
    · exact h.backed q r hr
  · intro f hf info q hcontent hq
    exact hused q (h.recorded f hf info q hcontent hq)
  · intro q r hq
    rcases hat q r hq with ⟨rfl, rfl⟩ | hr
    · trivial
    · have hold := h.known q r hr
      obtain ⟨phase, held⟩ := r
      cases phase with
      | clearJudges info believed read =>
          intro info' q' hcontent hq'
          exact hused q' (hold info' q' hcontent hq')
      | clearUnlinks info read =>
          intro info' q' hcontent hq'
          obtain ⟨hwas, hnone⟩ := hold info' q' hcontent hq'
          refine ⟨hused q' hwas, ?_⟩
          show Function.update s.process pid (some {}) q' = none
          rw [Function.update_apply, if_neg, hnone]
          rintro rfl
          rw [hnew] at hwas
          cases hwas
      | _ => trivial
  · intro q r info hq hinfo
    rcases hat q r hq with ⟨rfl, rfl⟩ | hr
    · cases hinfo
    · exact h.own q r info hr hinfo
  · intro q r hq
    rcases hat q r hq with ⟨rfl, -⟩ | hr
    · exact ⟨by simp, hpos⟩
    · exact ⟨hused q (h.started q r hr).1, (h.started q r hr).2⟩

theorem Inv.step (h : Inv s) {l : Label} (hguard : clearsWhatItRead s l = true)
    (ht : machine s l = some t) : Inv t := by
  cases l with
  | starts pid =>
      simp only [machine, Option.ite_none_left_eq_some, Option.some.injEq, Bool.or_eq_true,
        decide_eq_true_eq, not_or, Bool.not_eq_true] at ht
      obtain ⟨⟨hpos, hnew⟩, rfl⟩ := ht
      exact h.start hpos hnew
  | dies pid =>
      cases ht
      cases hp : s.process pid with
      | some p => exact h.put hp none nofun
      | none =>
          have hsame : s.put pid none = s := by
            rw [State.put, ← hp, Function.update_eq_self]
          rw [hsame]
          exact h
  | tryAcquire pid mode startedAt =>
      simp only [machine] at ht
      cases hp : s.process pid with
      | none => simp [hp] at ht
      | some p =>
          simp only [hp, Option.ite_none_right_eq_some, Option.some.injEq] at ht
          obtain ⟨-, rfl⟩ := ht
          refine h.put hp _ fun r hr => ?_
          cases hr
          refine ⟨⟨(h.backed pid p hp).1, trivial⟩, trivial, fun info hinfo => ?_⟩
          cases hinfo
          rfl
  | release pid =>
      simp only [machine] at ht
      cases hp : s.process pid with
      | none => simp [hp] at ht
      | some p =>
          simp only [hp, Option.ite_none_right_eq_some, Option.some.injEq] at ht
          obtain ⟨-, rfl⟩ := ht
          exact h.enter hp (not_relies nofun nofun) trivial nofun
  | step pid fault =>
      simp only [machine] at ht
      cases hp : s.process pid with
      | none => simp [hp] at ht
      | some p =>
          simp only [hp] at ht
          exact h.takeStep hp hguard ht

theorem inv_initial (found : Option (Option WriterLockInfo)) : Inv (initial found) := by
  refine ⟨?_, ?_, ?_, ?_, ?_⟩
  · intro pid p hp
    cases hp
  · intro f hf info pid hcontent hpid
    obtain ⟨holder, rfl, rfl⟩ := Option.map_eq_some_iff.mp hf
    cases holder with
    | none => cases hcontent
    | some holder =>
        cases hcontent
        simpa [initial] using hpid
  · intro pid p hp
    cases hp
  · intro pid p info hp
    cases hp
  · intro pid p hp
    cases hp

/-- Whatever the interleaving, one live process has the writer lock and its record stays, as
long as no clearing unlinks a file in use in place of the record that it has read. -/
theorem exclusive_always (found : Option (Option WriterLockInfo)) (labels : List Label)
    (h : machine.Guarded (fun s l => clearsWhatItRead s l = true) (initial found) labels) :
    machine.Always Exclusive (initial found) labels :=
  h.always (fun _ _ _ hs hl ht => hs.step hl ht) (fun _ hs => hs.exclusive) (inv_initial found)

/-- The record of a process that is gone. -/
def crashed : Option (Option WriterLockInfo) := some (some ⟨99, "daemon", 1000⟩)

/-- One process clears the record of a dead one, and another finds the lock taken. -/
def recovery : List Label :=
  [.starts 1, .starts 2, .tryAcquire 1 "direct" 2000, .step 1 false, .step 1 false, .step 1 false,
    .step 1 false, .step 1 false, .step 1 false, .step 1 false, .step 1 false, .step 1 false,
    .tryAcquire 2 "direct" 3000, .step 2 false, .step 2 false, .step 2 false, .step 2 false,
    .release 1, .step 1 false, .step 1 false, .step 1 false]

theorem exclusive_recovery : machine.Always Exclusive (initial crashed) recovery :=
  exclusive_always crashed recovery (by decide)

/-- Two processes have read the record of a dead one. The second unlinks the record that the
first has linked. -/
def clearedTwice : List Label :=
  [.starts 1, .starts 2, .tryAcquire 1 "direct" 2000, .step 1 false, .step 1 false, .step 1 false,
    .step 1 false, .step 1 false, .step 1 false, .tryAcquire 2 "direct" 2000, .step 2 false,
    .step 2 false, .step 2 false, .step 2 false, .step 2 false, .step 2 false,
    .step 1 false, .step 1 false, .step 1 false, .step 2 false, .step 2 false, .step 2 false]

theorem not_exclusive_clearedTwice :
    ¬ machine.Always Exclusive (initial crashed) clearedTwice := by
  intro h
  have hend : (machine.run (initial crashed) clearedTwice).any
      (fun t => t.holds 1 && t.holds 2) = true := by decide
  obtain ⟨t, ht, hboth⟩ := (Option.any_eq_true _ _).mp hend
  rw [Bool.and_eq_true] at hboth
  exact absurd ((h.last ht).atMostOne 1 2 hboth.1 hboth.2) (by decide)

end AfyxGraph.Mcp.WriterLock
