import AfyxGraph.Bulk.Invariant

/-! # The order of commits

Commits of parsed files are taken from one promise chain, in the order of the
list. An oversize file is committed by the dispatch loop itself; unless nothing
was fed before it, that commit does not wait for its turn.
-/

namespace AfyxGraph.Bulk

open AfyxGraph.Core Extraction

namespace Dispatch

/-- One `storeResult` after the other, for every file that was read. -/
def serialized : Nat → List SourceFile → List StoreEvent
  | _, [] => []
  | position, f :: rest =>
      (if f.unreadable then [] else [.begins position, .settles position]) ++
        serialized (position + 1) rest

/-- Every run calls `storeResult` in this way. -/
def Serialized (input : Input) : Prop :=
  ∀ s, (step input).Reaches (init input.files) s →
    s.log <+: serialized 0 input.files ∧
      ((step input).Stuck s → s.log = serialized 0 input.files)

/-- No oversize file follows a file that is fed. -/
def DirectFirst (files : List SourceFile) : Prop :=
  files.Pairwise fun f g => f.fed = true → g.oversize = false

instance (files : List SourceFile) : Decidable (DirectFirst files) :=
  inferInstanceAs (Decidable (files.Pairwise _))

theorem serialized_append (position : Nat) (files more : List SourceFile) :
    serialized position (files ++ more) =
      serialized position files ++ serialized (position + files.length) more := by
  induction files generalizing position with
  | nil => simp [serialized]
  | cons f files ih => simp [serialized, ih, Nat.add_assoc, Nat.add_comm 1]

/-! ## Lists without an oversize file behind a fed one -/

def slotEvents (slot : Slot) : List StoreEvent := [.begins slot.position, .settles slot.position]

/-- The direct call of `storeResult` the dispatch loop is in. -/
def directCall : Pc → List StoreEvent
  | .storing position _ _ => [.settles position]
  | _ => []

theorem directCall_of_feeding {pc : Pc} (h : Feeding pc) : directCall pc = [] := by
  cases pc with
  | storing position f result => exact (h.2 _ _ _ rfl).elim
  | _ => rfl

/-- The calls that are still to come, in the order they should come. -/
def future (s : Dispatch) : List StoreEvent :=
  s.storing.toList.map (fun slot => .settles slot.position) ++ directCall s.pc ++
    s.window.flatMap slotEvents ++ serialized s.position s.rest

/-- Runs in which every call of `storeResult` comes in its turn. -/
structure Ordered (input : Input) (s : Dispatch) : Prop extends WellFormed input s where
  clean : s.flushError = none
  ok : ∀ f ∈ s.storing.toList.map Slot.file ++ s.uncommitted, f.storeError = none
  direct : (s.window = [] ∧ s.storing = none ∧ DirectFirst s.ahead) ∨
    ∀ f ∈ s.ahead, f.oversize = false
  log_eq : s.log ++ s.future = serialized 0 input.files
  ended : ∀ outcome, s.pc = .done outcome → s.rest = [] ∧ s.window = [] ∧ s.storing = none

/-- `Ordered` does not look at jobs, tallies or the parses in flight. -/
theorem Ordered.of_same {input : Input} {s t : Dispatch} (h : Ordered input s)
    (hw : WellFormed input t) (hclean : t.flushError = s.flushError)
    (hstoring : t.storing = s.storing) (hfiles : t.window.map Slot.file = s.window.map Slot.file)
    (hahead : t.ahead = s.ahead) (hlog : t.log = s.log) (hfuture : t.future = s.future)
    (hended : ∀ outcome, t.pc = .done outcome →
      t.rest = [] ∧ t.window = [] ∧ t.storing = none) : Ordered input t := by
  have hempty : t.window = [] ↔ s.window = [] := by
    rw [← List.map_eq_nil_iff (f := Slot.file), hfiles, List.map_eq_nil_iff]
  refine { hw with
    clean := hclean ▸ h.clean, ok := ?_, direct := ?_, log_eq := ?_, ended := hended }
  · rw [uncommitted, hstoring, hfiles, hahead]
    exact h.ok
  · rw [hempty, hstoring, hahead]
    exact h.direct
  · rw [hlog, hfuture]
    exact h.log_eq

theorem Ordered.waitForRoom {input : Input} {s : Dispatch} (h : Ordered input s)
    (hpc : Feeding s.pc) (hw : WellFormed input (s.waitForRoom input.windowSize)) :
    Ordered input (s.waitForRoom input.windowSize) := by
  obtain ⟨pc, jobs, hfeeding, he⟩ := s.waitForRoom_frame input.windowSize
  rw [he] at hw ⊢
  refine h.of_same hw rfl rfl rfl ?_ rfl ?_ fun outcome hdone => (hfeeding.1 outcome hdone).elim
  · rw [ahead_of_feeding hpc, ahead_of_feeding hfeeding]
  · simp only [future, directCall_of_feeding hpc, directCall_of_feeding hfeeding]

/-- While an oversize file is at the front nothing has been fed. -/
theorem Ordered.idle {input : Input} {s : Dispatch} (h : Ordered input s) {f : SourceFile}
    {rest : List SourceFile} (hahead : s.ahead = f :: rest) (hf : f.oversize = true) :
    s.window = [] ∧ s.storing = none ∧ DirectFirst rest := by
  rcases h.direct with ⟨hempty, hstoring, hdirect⟩ | hall
  · rw [hahead] at hdirect
    exact ⟨hempty, hstoring, (List.pairwise_cons.mp hdirect).2⟩
  · simp [hall f (by simp [hahead])] at hf

theorem serialized_cons {position : Nat} {f : SourceFile} {rest : List SourceFile}
    (hf : f.unreadable = false) : serialized position (f :: rest) =
      .begins position :: .settles position :: serialized (position + 1) rest := by
  simp [serialized, hf]

theorem Ordered.unreadable {input : Input} {s : Dispatch} (h : Ordered input s) {f : SourceFile}
    {rest : List SourceFile} (hpc : s.pc = .dispatch) (hrest : s.rest = f :: rest)
    (hf : f.unreadable = true) {tally : Tally}
    (hw : WellFormed input { s with rest, position := s.position + 1, tally }) :
    Ordered input { s with rest, position := s.position + 1, tally } := by
  have hahead : s.ahead = f :: rest := by simp [ahead, hpc, hrest]
  have hnext : ahead { s with rest, position := s.position + 1, tally } = rest := by
    simp [ahead, hpc]
  refine { hw with clean := h.clean, ok := ?_, direct := ?_, log_eq := ?_, ended := ?_ }
  · intro g hg
    refine h.ok g ?_
    rw [uncommitted, hnext] at hg
    rw [uncommitted, hahead]
    simp only [List.mem_append, List.mem_cons] at hg ⊢
    tauto
  · rw [hnext]
    refine h.direct.imp (fun hd => ⟨hd.1, hd.2.1, ?_⟩) fun hall g hg => ?_
    · have hdirect := hd.2.2
      rw [hahead] at hdirect
      exact (List.pairwise_cons.mp hdirect).2
    · exact hall g (by rw [hahead]; exact List.mem_cons_of_mem _ hg)
  · have hlog := h.log_eq
    simp only [future, hrest] at hlog
    simpa [future, serialized, hf] using hlog
  · intro outcome hdone
    simp [hpc] at hdone

/-- A fed file takes its place at the end of what is to come. -/
theorem Ordered.feed {input : Input} {s : Dispatch} (h : Ordered input s) {f : SourceFile}
    {rest : List SourceFile} (hpc : s.pc = .dispatch) (hrest : s.rest = f :: rest)
    (hf : f.fed = true) : Ordered input
      (({ s with rest, position := s.position + 1 }.feed s.position f).waitForRoom
        input.windowSize) := by
  have hw := step_wellFormed h.toWellFormed (.feed f rest hpc hrest hf)
  obtain ⟨pc, jobs, hfeeding, he⟩ := waitForRoom_frame input.windowSize
    ({ s with rest, position := s.position + 1 }.feed s.position f)
  rw [he] at hw ⊢
  have hahead : s.ahead = f :: rest := by simp [ahead, hpc, hrest]
  have hnext : ahead { { s with rest, position := s.position + 1 }.feed s.position f with
      pc, jobs } = rest := ahead_of_feeding hfeeding
  refine { hw with clean := h.clean, ok := ?_, direct := ?_, log_eq := ?_, ended := ?_ }
  · have hok := h.ok
    rw [uncommitted, hahead] at hok
    rw [uncommitted, hnext]
    simpa [Dispatch.feed] using hok
  · rw [hnext]
    refine Or.inr fun g hg => ?_
    rcases h.direct with ⟨_, _, hdirect⟩ | hall
    · rw [hahead] at hdirect
      exact (List.pairwise_cons.mp hdirect).1 g hg hf
    · exact hall g (by rw [hahead]; exact List.mem_cons_of_mem _ hg)
  · have hlog := h.log_eq
    have hunreadable : f.unreadable = false := by
      simp only [SourceFile.fed, Bool.and_eq_true, Bool.not_eq_true'] at hf
      exact hf.1
    simp only [future, hpc, hrest, serialized_cons hunreadable, directCall] at hlog
    simp only [future, Dispatch.feed, directCall_of_feeding hfeeding]
    simpa [slotEvents] using hlog
  · exact fun outcome hdone => (hfeeding.1 outcome hdone).elim

theorem step_ordered {input : Input} {s t : Dispatch} (h : Ordered input s)
    (he : Effect input s t) : Ordered input t := by
  have hw := step_wellFormed h.toWellFormed he
  have hwaits := h.waits
  cases he with
  | unreadable f rest message pc next read =>
      exact h.unreadable pc next (by simp [SourceFile.unreadable, read]) hw
  | oversize f rest size pc next read large =>
      have hu : f.unreadable = false := by simp [SourceFile.unreadable, read]
      have hahead : s.ahead = f :: rest := by simp [ahead, pc, next]
      obtain ⟨hempty, hstoring, _⟩ := h.idle hahead (by simp [SourceFile.oversize, read, large])
      have hok := h.ok
      have hdirect := h.direct
      have hlog := h.log_eq
      refine { hw with clean := h.clean, ok := ?_, direct := ?_, log_eq := ?_, ended := ?_ }
      · rw [uncommitted, hahead] at hok
        simpa [uncommitted, ahead, beginStore] using hok
      · rw [hahead] at hdirect
        simpa [ahead, beginStore] using hdirect
      · simp only [future, next, pc, serialized_cons hu, hstoring, hempty, directCall] at hlog
        simpa [future, beginStore, hstoring, hempty, directCall] using hlog
      · intro outcome hdone
        cases hdone
  | feed f rest pc next fed => exact h.feed pc next fed
  | allFed pc next =>
      refine h.of_same hw rfl rfl rfl ?_ rfl ?_ fun _ hdone => by cases hdone
      · simp [ahead, pc]
      · simp [future, pc, directCall]
  | raced parses pc settled => exact h.waitForRoom (by simp [Feeding, pc]) hw
  | awaited job pc ended => exact h.waitForRoom (by simp [Feeding, pc]) hw
  | allParsed parses pc settled =>
      refine h.of_same hw rfl rfl rfl ?_ rfl ?_ fun _ hdone => by cases hdone
      · simp [ahead, pc, flushOrdered]
      · simp [future, pc, directCall, flushOrdered]
  | finish job pc ended =>
      simp only [PcInv, pc] at hwaits
      obtain ⟨hflight, rfl, hrest, _⟩ := hwaits
      have hdone := drained h.toSound hflight (Nat.le_antisymm h.jobs_le ended)
      have hended : s.rest = [] ∧ s.window = [] ∧ s.storing = none :=
        ⟨hrest, hdone.2 h.clean, hdone.1⟩
      have hahead : s.ahead = s.rest := by simp [ahead, pc]
      have hcall : directCall s.pc = [] := by simp [directCall, pc]
      unfold Dispatch.finish at hw ⊢
      simp only [h.clean] at hw ⊢
      split at hw
      · refine h.of_same hw rfl rfl rfl ?_ rfl ?_ fun _ _ => hended
        · rw [hahead]
          rfl
        · simp only [future, hcall]
          rfl
      · refine h.of_same hw h.clean.symm rfl rfl ?_ rfl ?_ fun _ _ => hended
        · rw [hahead]
          rfl
        · simp only [future, hcall]
          rfl
  | directFailed position f result error pc throws =>
      have := h.ok f (by simp [uncommitted, ahead, pc])
      simp [this] at throws
  | directStored position f result pc ok =>
      simp only [PcInv, pc] at hwaits
      have hahead : s.ahead = f :: s.rest := by simp [ahead, pc]
      obtain ⟨hempty, hstoring, hdirect⟩ := h.idle hahead hwaits.2.2
      have hok := h.ok
      have hlog := h.log_eq
      refine { hw with clean := h.clean, ok := ?_, direct := ?_, log_eq := ?_, ended := ?_ }
      · intro g hg
        refine hok g ?_
        rw [uncommitted, hahead]
        simp only [uncommitted, ahead, endStore] at hg
        simp only [List.mem_append, List.mem_cons] at hg ⊢
        tauto
      · exact Or.inl ⟨hempty, hstoring, hdirect⟩
      · simp only [future, pc, hstoring, hempty, directCall] at hlog
        simpa [future, endStore, hstoring, hempty, directCall] using hlog
      · intro outcome hdone
        cases hdone
  | parsed seq parsing =>
      have hevents : (s.window.map (Slot.complete seq)).flatMap slotEvents =
          s.window.flatMap slotEvents := by
        rw [List.flatMap_map]
        exact List.flatMap_congr fun slot _ => by simp [slotEvents]
      refine h.of_same hw rfl rfl (by simp [Function.comp_def]) rfl rfl ?_ fun outcome hdone => ?_
      · simp only [future, flushOrdered, hevents]
      · have hended := h.ended outcome hdone
        exact ⟨hended.1, by simp [hended.2.1], hended.2.2⟩
  | untracked seq tracked settled => exact h.of_same hw rfl rfl rfl rfl rfl rfl h.ended
  | jobEnded pending idle blocked => exact h.of_same hw rfl rfl rfl rfl rfl rfl h.ended
  | committing slot pending idle clean found =>
      obtain ⟨_, window, hwin⟩ := completedAt_eq_some h.seqs found
      have hall : ∀ f ∈ s.ahead, f.oversize = false := by
        refine h.direct.resolve_left fun hd => ?_
        simp [hwin] at hd
      have hcall : directCall s.pc = [] := by
        cases hpc : s.pc with
        | storing position f result =>
            simp only [PcInv, hpc] at hwaits
            have := hall f (by simp [ahead, hpc])
            simp [hwaits.2.2] at this
        | _ => rfl
      have hok := h.ok
      have hlog := h.log_eq
      refine { hw with clean := h.clean, ok := ?_, direct := Or.inr hall, log_eq := ?_, ended := ?_ }
      · simp only [uncommitted, hwin, idle] at hok
        simpa [uncommitted, hwin, beginStore, ahead] using hok
      · simp only [future, idle, hwin, hcall] at hlog
        simpa [future, beginStore, hwin, hcall, slotEvents] using hlog
      · intro outcome hdone
        have := (h.ended outcome hdone).2.1
        simp [hwin] at this
  | commitFailed slot error storing throws =>
      have := h.ok slot.file (by simp [storing])
      simp [this] at throws
  | committed slot storing ok =>
      have hok := h.ok
      have hlog := h.log_eq
      refine { hw with clean := h.clean, ok := ?_, direct := ?_, log_eq := ?_, ended := ?_ }
      · intro g hg
        have hleft : g ∈ s.uncommitted := hg
        exact hok g (List.mem_append_right _ hleft)
      · exact Or.inr (h.direct.resolve_left fun hd => by simp [storing] at hd)
      · simp only [future, storing] at hlog
        simpa [future, endStore] using hlog
      · intro outcome hdone
        have := (h.ended outcome hdone).2.2
        simp [storing] at this

theorem serialized_of_directFirst {input : Input} (hok : ∀ f ∈ input.files, f.storeError = none)
    (h : DirectFirst input.files) : Serialized input := by
  have hinit : Ordered input (init input.files) :=
    { init_wellFormed input input.files with
      clean := rfl
      ok := by simpa [uncommitted, ahead, init] using hok
      direct := Or.inl ⟨rfl, rfl, h⟩
      log_eq := by simp [future, init, directCall]
      ended := by simp [init] }
  intro s hr
  have hs : Ordered input s :=
    hr.invariant (fun _ _ _ ho ht => step_ordered ho (step_effect ht)) hinit
  refine ⟨⟨s.future, hs.log_eq⟩, fun stuck => ?_⟩
  obtain ⟨outcome, hpc⟩ := stuck_done hs.toWellFormed stuck
  obtain ⟨hrest, hempty, hstoring⟩ := hs.ended outcome hpc
  have hfuture : s.future = [] := by
    simp [future, hrest, hempty, hstoring, hpc, directCall, serialized]
  simpa [hfuture] using hs.log_eq

/-! ## Lists with one -/

/-- Everything fed is committed and the loop is about to look at the next file. -/
structure Quiet (s : Dispatch) : Prop where
  pc : s.pc = .dispatch
  inFlight : s.inFlight = []
  window : s.window = []
  jobs : s.jobsDone = s.jobs
  storing : s.storing = none
  clean : s.flushError = none
  cursor : s.nextToStore = s.nextSeq

theorem main_unreadable (input : Input) {s : Dispatch} (hpc : s.pc = .dispatch) {f : SourceFile}
    {rest : List SourceFile} (hrest : s.rest = f :: rest) (hf : f.unreadable = true) :
    ∃ tally, step input s .main = some { s with rest, position := s.position + 1, tally } := by
  cases hread : f.read with
  | failed message =>
      exact ⟨s.tally.readFailed f.path message,
        by simp only [step, mainStep, hpc, hrest, dispatchNext, hread]⟩
  | content size => simp [SourceFile.unreadable, hread] at hf

theorem main_oversize (input : Input) {s : Dispatch} (hpc : s.pc = .dispatch) {f : SourceFile}
    {rest : List SourceFile} (hrest : s.rest = f :: rest) (hf : f.oversize = true) :
    ∃ result, step input s .main = some
      { { s with rest, position := s.position + 1 }.beginStore s.position with
        pc := .storing s.position f result } := by
  cases hread : f.read with
  | failed message => simp [SourceFile.oversize, hread] at hf
  | content size =>
      have hlarge : MAX_FILE_SIZE < size := by simpa [SourceFile.oversize, hread] using hf
      exact ⟨f.sizeResult size,
        by simp only [step, mainStep, hpc, hrest, dispatchNext, hread, if_pos hlarge]⟩

theorem main_feed (input : Input) {s : Dispatch} (hpc : s.pc = .dispatch) {f : SourceFile}
    {rest : List SourceFile} (hrest : s.rest = f :: rest) (hf : f.fed = true) :
    step input s .main = some
      (({ s with rest, position := s.position + 1 }.feed s.position f).waitForRoom
        input.windowSize) := by
  cases hread : f.read with
  | failed message => simp [SourceFile.fed, SourceFile.unreadable, hread] at hf
  | content size =>
      have hsmall : ¬ MAX_FILE_SIZE < size := by
        simpa [SourceFile.fed, SourceFile.unreadable, SourceFile.oversize, hread] using hf
      simp only [step, mainStep, hpc, hrest, dispatchNext, hread, if_neg hsmall]

/-- A quiet loop feeds a file: the window holds it alone, and the loop goes on or
waits for it. -/
theorem quiet_main (input : Input) {s : Dispatch} (hs : Quiet s) {f : SourceFile}
    {rest : List SourceFile} (hrest : s.rest = f :: rest) (hf : f.fed = true) :
    ∃ pc, step input s .main = some
        { ({ s with rest, position := s.position + 1 }.feed s.position f) with pc } ∧
      ((1 < input.windowSize ∧ pc = .dispatch) ∨
        (input.windowSize = 1 ∧ pc = .racing [s.nextSeq])) := by
  rw [main_feed input hs.pc hrest hf]
  have hpos := input.windowSize_pos
  have hcursor := hs.cursor
  rcases waitForRoom_cases input.windowSize
    ({ s with rest, position := s.position + 1 }.feed s.position f) with
    ⟨hroom, he⟩ | ⟨hfull, _, he⟩ | ⟨_, hempty, _⟩
  · refine ⟨.dispatch, by rw [he], Or.inl ⟨?_, rfl⟩⟩
    simp only [Dispatch.feed] at hroom
    omega
  · refine ⟨.racing [s.nextSeq], ?_, Or.inr ⟨?_, rfl⟩⟩
    · rw [he]
      simp [Dispatch.feed, hs.inFlight]
    · simp only [Dispatch.feed] at hfull
      omega
  · simp [Dispatch.feed] at hempty

/-- A quiet loop has fed a file and the chain has begun to commit it. -/
def commits (s : Dispatch) (f : SourceFile) (rest : List SourceFile) (pc : Pc) : Dispatch :=
  { s with
    rest, pc
    position := s.position + 1
    nextSeq := s.nextSeq + 1, nextToStore := s.nextSeq + 1
    inFlight := [s.nextSeq], window := [], jobs := s.jobs + 1
    storing := some ⟨s.nextSeq, s.position, f, true⟩
    tally := { s.tally with processed := s.tally.processed + 1 }
    log := s.log ++ [.begins s.position] }

theorem quiet_commits (input : Input) {s : Dispatch} (hs : Quiet s) (f : SourceFile)
    (rest : List SourceFile) (pc : Pc) :
    (step input).Reaches
      { ({ s with rest, position := s.position + 1 }.feed s.position f) with pc }
      (s.commits f rest pc) := by
  refine ⟨[.parseSettles s.nextSeq, .chain], ?_⟩
  simp [commits, step, parseStep, isParsing, Dispatch.feed, hs.window, hs.inFlight, flushOrdered,
    chainStep, hs.jobs, hs.storing, hs.clean, completedAt, Slot.complete, hs.cursor, beginStore]

/-- The commit settles, its job ends, and the parse leaves `inFlight`. -/
def settled (s : Dispatch) (f : SourceFile) (rest : List SourceFile) (pc : Pc) : Dispatch :=
  { s with
    rest, pc
    position := s.position + 1
    nextSeq := s.nextSeq + 1, nextToStore := s.nextSeq + 1
    jobs := s.jobs + 1, jobsDone := s.jobs + 1
    tally := { s.tally with processed := s.tally.processed + 1 }.stored f.path f.language
      f.parseResult
    log := s.log ++ [.begins s.position, .settles s.position] }

theorem quiet_settled (input : Input) {s : Dispatch} (hs : Quiet s) {f : SourceFile}
    (hok : f.storeError = none) (rest : List SourceFile) (pc : Pc) :
    (step input).Reaches (s.commits f rest pc) (s.settled f rest pc) := by
  refine ⟨[.storeSettles, .chain, .untracks s.nextSeq], ?_⟩
  simp [commits, settled, step, storeStep, endStore, hok, chainStep, hs.jobs, hs.clean, completedAt,
    untrackStep, isParsing, hs.window, hs.inFlight, hs.storing]

/-- From a quiet state the next file can be dealt with to the end. -/
theorem quiet_next (input : Input) {s : Dispatch} (hs : Quiet s) {f : SourceFile}
    {rest : List SourceFile} (hrest : s.rest = f :: rest) (hok : f.storeError = none) :
    ∃ t, (step input).Reaches s t ∧ Quiet t ∧ t.rest = rest ∧ t.position = s.position + 1 ∧
      t.log = s.log ++ serialized s.position [f] := by
  cases hu : f.unreadable with
  | true =>
      obtain ⟨tally, hmain⟩ := main_unreadable input hs.pc hrest hu
      exact ⟨_, .of_step hmain, { hs with }, rfl, rfl, by simp [serialized, hu]⟩
  | false =>
      cases hover : f.oversize with
      | true =>
          obtain ⟨result, hmain⟩ := main_oversize input hs.pc hrest hover
          let begun : Dispatch := { s with rest, position := s.position + 1 }.beginStore s.position
          have hdirect : step input { begun with pc := .storing s.position f result }
              .directSettles = some { begun.endStore s.position with
                pc := .dispatch, tally := begun.tally.stored f.path f.language result } := by
            simp [step, directStep, hok, endStore]
          refine ⟨_, (Machine.Reaches.of_step hmain).tail hdirect, ?_, rfl, rfl, ?_⟩
          · exact { hs with pc := rfl }
          · simp [begun, beginStore, endStore, serialized, hu]
      | false =>
          have hfed : f.fed = true := by simp [SourceFile.fed, hu, hover]
          obtain ⟨pc, hmain, hpc⟩ := quiet_main input hs hrest hfed
          have hreach := ((Machine.Reaches.of_step hmain).trans
            (quiet_commits input hs f rest pc)).trans (quiet_settled input hs hok rest pc)
          have hquiet : Quiet (s.settled f rest .dispatch) :=
            { hs with pc := rfl, jobs := rfl, cursor := rfl }
          have hlog : (s.settled f rest .dispatch).log = s.log ++ serialized s.position [f] := by
            simp [settled, serialized, hu]
          refine ⟨s.settled f rest .dispatch, ?_, hquiet, rfl, rfl, hlog⟩
          rcases hpc with ⟨_, rfl⟩ | ⟨hone, rfl⟩
          · exact hreach
          · refine hreach.tail (a := .main) ?_
            simp [step, mainStep, settled, hs.inFlight, waitForRoom, hone]

/-- A quiet loop can deal with any part of the list. -/
theorem quiet_run (input : Input) {files : List SourceFile} :
    ∀ {s : Dispatch} {rest : List SourceFile}, Quiet s → s.rest = files ++ rest →
      (∀ f ∈ files, f.storeError = none) →
      ∃ t, (step input).Reaches s t ∧ Quiet t ∧ t.rest = rest ∧
        t.position = s.position + files.length ∧ t.log = s.log ++ serialized s.position files := by
  induction files with
  | nil =>
      intro s rest hs hrest _
      exact ⟨s, .refl _ s, hs, hrest, by simp, by simp [serialized]⟩
  | cons f files ih =>
      intro s rest hs hrest hok
      obtain ⟨t, hreach, ht, htrest, htpos, htlog⟩ := quiet_next input hs hrest (hok f (by simp))
      obtain ⟨u, hreach', hu, hurest, hupos, hulog⟩ :=
        ih ht htrest fun g hg => hok g (List.mem_cons_of_mem _ hg)
      refine ⟨u, hreach.trans hreach', hu, hurest, ?_, ?_⟩
      · rw [hupos, htpos, List.length_cons]
        omega
      · rw [hulog, htlog, htpos, ← List.singleton_append (l := files), serialized_append]
        simp

/-- The dispatch loop passes over files it could not read. -/
theorem main_unreadables (input : Input) {files : List SourceFile} :
    ∀ {s : Dispatch} {rest : List SourceFile}, s.pc = .dispatch → s.rest = files ++ rest →
      (∀ f ∈ files, f.unreadable = true) →
      ∃ t, (step input).Reaches s t ∧ t.pc = .dispatch ∧ t.rest = rest ∧ t.log = s.log ∧
        t.position = s.position + files.length := by
  induction files with
  | nil =>
      intro s rest hpc hrest _
      exact ⟨s, .refl _ s, hpc, hrest, rfl, rfl⟩
  | cons f files ih =>
      intro s rest hpc hrest hu
      obtain ⟨tally, hmain⟩ := main_unreadable input hpc hrest (hu f (by simp))
      obtain ⟨t, hreach, htpc, htrest, htlog, htpos⟩ :=
        ih (s := { s with rest := files ++ rest, position := s.position + 1, tally }) hpc rfl
          fun g hg => hu g (List.mem_cons_of_mem _ hg)
      refine ⟨t, (Machine.Reaches.of_step hmain).trans hreach, htpc, htrest, htlog, ?_⟩
      rw [htpos, List.length_cons]
      dsimp only
      omega

theorem first_oversize {files : List SourceFile} (hd : DirectFirst files)
    (h : ∃ g ∈ files, g.oversize = true) :
    ∃ skipped g after, files = skipped ++ g :: after ∧
      (∀ u ∈ skipped, u.unreadable = true) ∧ g.oversize = true := by
  induction files with
  | nil => simp at h
  | cons f files ih =>
      obtain ⟨hf, hrest⟩ := List.pairwise_cons.mp hd
      cases hover : f.oversize with
      | true => exact ⟨[], f, files, rfl, by simp, hover⟩
      | false =>
          obtain ⟨g, hg, hgo⟩ := h
          have hg' : g ∈ files := (List.mem_cons.mp hg).resolve_left (by rintro rfl; simp [hover] at hgo)
          cases hu : f.unreadable with
          | true =>
              obtain ⟨skipped, o, after, rfl, hskipped, ho⟩ := ih hrest ⟨g, hg', hgo⟩
              refine ⟨f :: skipped, o, after, rfl, fun u hm => ?_, ho⟩
              rcases List.mem_cons.mp hm with rfl | hm
              · exact hu
              · exact hskipped u hm
          | false =>
              have := hf g hg' (by simp [SourceFile.fed, hu, hover])
              simp [this] at hgo

/-- Where the condition fails there is an oversize file behind a fed one with
only unreadable files between them. -/
theorem not_directFirst {files : List SourceFile} (h : ¬ DirectFirst files) :
    ∃ before f skipped g after, files = before ++ f :: (skipped ++ g :: after) ∧
      f.fed = true ∧ (∀ u ∈ skipped, u.unreadable = true) ∧ g.oversize = true := by
  induction files with
  | nil => exact (h List.Pairwise.nil).elim
  | cons f files ih =>
      by_cases hrest : DirectFirst files
      · have hbehind : f.fed = true ∧ ∃ g ∈ files, g.oversize = true := by
          by_contra hno
          refine h (List.pairwise_cons.mpr ⟨fun g hg hf => ?_, hrest⟩)
          cases hgo : g.oversize with
          | false => rfl
          | true => exact (hno ⟨hf, g, hg, hgo⟩).elim
        obtain ⟨skipped, g, after, rfl, hskipped, hg⟩ := first_oversize hrest hbehind.2
        exact ⟨[], f, skipped, g, after, rfl, hbehind.1, hskipped, hg⟩
      · obtain ⟨before, d, skipped, g, after, rfl, hd⟩ := ih hrest
        exact ⟨f :: before, d, skipped, g, after, rfl, hd⟩

/-- After a fed file and some unreadable ones the loop begins the direct commit
of an oversize file, at a moment when the fed one is not committed. -/
theorem overtakes {input : Input} {s : Dispatch} (hs : Quiet s) {f g : SourceFile}
    {skipped after : List SourceFile} (hrest : s.rest = f :: (skipped ++ g :: after))
    (hf : f.fed = true) (hskipped : ∀ u ∈ skipped, u.unreadable = true) (hg : g.oversize = true) :
    ∃ t position, (step input).Reaches s t ∧ s.position < position ∧
      (t.log = s.log ++ [.begins position] ∨
        t.log = s.log ++ [.begins s.position, .begins position]) := by
  obtain ⟨pc, hmain, hpc⟩ := quiet_main input hs hrest hf
  -- the loop is back at the top with the file parsing, or with its commit begun
  have hback : ∃ u, (step input).Reaches s u ∧ u.pc = .dispatch ∧
      u.rest = skipped ++ g :: after ∧ u.position = s.position + 1 ∧
      (u.log = s.log ∨ u.log = s.log ++ [.begins s.position]) := by
    rcases hpc with ⟨_, rfl⟩ | ⟨hone, rfl⟩
    · exact ⟨_, .of_step hmain, rfl, rfl, rfl, Or.inl rfl⟩
    · have hreach := (Machine.Reaches.of_step hmain).trans
        (quiet_commits input hs f (skipped ++ g :: after) (.racing [s.nextSeq]))
      let idle : Dispatch :=
        { s.commits f (skipped ++ g :: after) (.racing [s.nextSeq]) with inFlight := [] }
      have huntrack : step input (s.commits f (skipped ++ g :: after) (.racing [s.nextSeq]))
          (.untracks s.nextSeq) = some idle := by
        simp [step, untrackStep, commits, isParsing, idle]
      have hresume : step input idle .main = some { idle with pc := .dispatch } := by
        simp [step, mainStep, idle, commits, waitForRoom, hone]
      exact ⟨_, (hreach.tail huntrack).tail hresume, rfl, rfl, rfl, Or.inr rfl⟩
  obtain ⟨u, hu, hupc, hurest, hupos, hulog⟩ := hback
  obtain ⟨v, hv, hvpc, hvrest, hvlog, hvpos⟩ := main_unreadables input hupc hurest hskipped
  obtain ⟨result, hlast⟩ := main_oversize input hvpc hvrest hg
  refine ⟨_, v.position, (hu.trans hv).tail hlast, by omega, ?_⟩
  rcases hulog with hulog | hulog
  · exact Or.inl (by simp [beginStore, hvlog, hulog])
  · exact Or.inr (by simp [beginStore, hvlog, hulog])

theorem directFirst_of_serialized {input : Input}
    (hok : ∀ f ∈ input.files, f.storeError = none) (h : Serialized input) :
    DirectFirst input.files := by
  by_contra hnot
  obtain ⟨before, f, skipped, g, after, hfiles, hf, hskipped, hg⟩ := not_directFirst hnot
  have hquiet : Quiet (init input.files) := ⟨rfl, rfl, rfl, rfl, rfl, rfl, rfl⟩
  obtain ⟨s, hs, hsq, hsrest, hspos, hslog⟩ := quiet_run input hquiet hfiles
    fun u hu => hok u (by rw [hfiles]; exact List.mem_append_left _ hu)
  obtain ⟨t, position, ht, hlt, hlog⟩ := overtakes hsq hsrest hf hskipped hg
  have hprefix := (h t (hs.trans ht)).1
  have hpos : s.position = before.length := by simpa [init] using hspos
  have hslog' : s.log = serialized 0 before := by simpa [init] using hslog
  have hu : f.unreadable = false := by
    simp only [SourceFile.fed, Bool.and_eq_true, Bool.not_eq_true'] at hf
    exact hf.1
  rw [hfiles, serialized_append, serialized_cons hu, ← hslog'] at hprefix
  rcases hlog with hlog | hlog
  · rw [hlog, List.prefix_append_right_inj] at hprefix
    simp at hprefix
    omega
  · rw [hlog, List.prefix_append_right_inj] at hprefix
    simp at hprefix

/-- Without failing stores, every run commits one file after the other in the
order of the list exactly when no oversize file follows a file that is fed. -/
theorem serialized_iff (input : Input) (hok : ∀ f ∈ input.files, f.storeError = none) :
    Serialized input ↔ DirectFirst input.files :=
  ⟨directFirst_of_serialized hok, serialized_of_directFirst hok⟩

/-- A small file behind an oversize one, in the order that is safe. -/
theorem serialized_iff_large_first : Serialized
    ⟨[⟨"bundle.js", .content 2000000, .javascript, .error "", none⟩,
      ⟨"a.ts", .content 10, .typescript, .error "Parse timed out after 10000ms", none⟩],
      4, by decide, none⟩ :=
  (serialized_iff _ (by simp)).mpr (by decide)

/-- A small file is being parsed when the loop commits the oversize one behind it. -/
theorem serialized_fails : ¬ ∀ input : Input,
    (∀ f ∈ input.files, f.storeError = none) → Serialized input := by
  intro h
  let small : SourceFile :=
    ⟨"a.ts", .content 10, .typescript, .error "Parse timed out after 10000ms", none⟩
  let large : SourceFile := ⟨"bundle.js", .content 2000000, .javascript, .error "", none⟩
  have hfirst := @directFirst_of_serialized ⟨[small, large], 4, by decide, none⟩
    (by simp [small, large]) (h _ (by simp [small, large]))
  exact absurd hfirst (by decide)

end Dispatch

end AfyxGraph.Bulk
