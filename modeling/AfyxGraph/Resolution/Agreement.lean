import AfyxGraph.Resolution.Outcome

/-! # Batched and sequential resolution agree

Every step of the loop keeps the outcome, whatever the pool does, and gets closer to the end.
So every run ends, and with the session of the batches in sequence.
-/

namespace AfyxGraph.Resolution

open AfyxGraph.Core

namespace Loop

variable {setup : Setup} {s t : Loop}

theorem rank_lt {rank rank' n m : Nat} (h : rank < rank') :
    toLex (rank, n) < toLex (rank', m) := Prod.Lex.toLex_lt_toLex.mpr (Or.inl h)

theorem todo_lt {α : Type} (rank : Nat) (x : α) (todo : List α) :
    toLex (rank, todo.length) < toLex (rank, (x :: todo).length) :=
  Prod.Lex.toLex_lt_toLex.mpr (Or.inr ⟨rfl, Nat.lt_succ_self _⟩)

/-! ## Settling a batch -/

theorem ne_of_stage {stage : Stage} (hstage : s.stage = stage) (h : stage ≠ .finished) :
    s.stage ≠ .finished := hstage ▸ h

/-- The main thread takes the batch. -/
theorem Coherent.resolve (h : s.Coherent setup) (hstage : s.stage = .settling)
    (pool : Option Pool) :
    Advances setup s { s with pool := pool, stage := .resolving s.batch .empty } := by
  have hok := h.stage
  simp only [StageOk, hstage] at hok
  refine h.advances (h.sameTurn rfl rfl rfl rfl) (ne_of_stage hstage nofun) nofun ?_ ?_ ?_
  · exact ⟨hok.2, [], rfl, answers_empty⟩
  · simp only [completion, hstage]
    rfl
  · rw [hstage]
    exact rank_lt (by decide)

/-- The answers for the chunks, in their order. -/
def answer (s : Loop) : ChunkResult := (s.chunks.map (·.out)).foldl ChunkResult.append .empty

theorem settlePool_cases (ht : s.settlePool = some t) :
    t = { s with pool := none, stage := .resolving s.batch .empty } ∨
      (∀ c ∈ s.chunks, c.todo = []) ∧ t = { s with
        session := s.session.settle s.answer s.rowIds
        stage := .engaging s.answer.toResolutionResult } := by
  unfold Loop.settlePool at ht
  split at ht
  · exact Or.inl (Option.some.inj ht).symm
  · split at ht
    · rename_i htodo
      refine Or.inr ⟨fun c hc => by simpa using List.all_eq_true.mp htodo c hc, ?_⟩
      rw [← appendDeferredFromWorkers_eq]
      exact (Option.some.inj ht).symm
    · cases ht

/-- What the pool has answered is what the main thread would have. -/
theorem FannedOut.attemptAll (h : s.FannedOut setup s.batch)
    (htodo : ∀ c ∈ s.chunks, c.todo = []) : setup.attemptAll s.session .empty s.batch =
      (s.session.settle s.answer s.rowIds, s.answer.toResolutionResult) := by
  have hout : s.chunks.map (·.out) =
      (s.chunks.map (·.refs)).map (setup.resolveListForAdmission s.session.edges) := by
    rw [List.map_map]
    apply List.map_congr_left
    intro c hc
    obtain ⟨done, hrefs, hout⟩ := h.answered c hc
    rw [htodo c hc, List.append_nil] at hrefs
    rw [hout, Function.comp_apply, hrefs]
  have hall := attemptAll_eq_settle setup s.session (s.chunks.map (·.refs))
  rw [answer, hout, Loop.rowIds, ← h.flatten]
  exact hall

theorem Coherent.settlePool (h : s.Coherent setup) (hstage : s.stage = .settling)
    (hmode : s.mode = .pool) (ht : s.settlePool = some t) : Advances setup s t := by
  have hok := h.stage
  simp only [StageOk, hstage] at hok
  obtain ⟨hfanned, hpresent⟩ := hok
  rcases settlePool_cases ht with rfl | ⟨htodo, rfl⟩
  · exact h.resolve hstage none
  · have hattempt := (hfanned hmode).attemptAll htodo
    have hanswers := answers_empty.attemptAll setup s.session s.batch
    rw [hattempt] at hanswers
    refine h.advances (h.sameTurn rfl rfl rfl rfl) (ne_of_stage hstage nofun) nofun ?_ ?_ ?_
    · exact ⟨hpresent, hanswers⟩
    · simp only [completion, hstage, Setup.admitBatch, hattempt]
    · rw [hstage]
      exact rank_lt (by decide)

/-- The next reference on the main thread. -/
theorem Coherent.attempt (h : s.Coherent setup) {raw : RefRow} {todo : List RefRow}
    {result : ResolutionResult} (hstage : s.stage = .resolving (raw :: todo) result) :
    Advances setup s { s with
      session := (setup.attempt s.session result raw).1
      stage := .resolving todo (setup.attempt s.session result raw).2 } := by
  have hok := h.stage
  simp only [StageOk, hstage] at hok
  obtain ⟨hpresent, done, hbatch, hanswers⟩ := hok
  have hstore := attempt_toStore setup s.session result raw
  refine h.advances (h.sameTurn ?_ rfl rfl rfl) (ne_of_stage hstage nofun) nofun ?_ ?_ ?_
  · simp only [hstore]
  · refine ⟨?_, done ++ [raw], by simp [hbatch], ?_⟩
    · simp only [hstore]
      exact hpresent
    · simpa using hanswers.attempt setup s.session raw
  · simp only [completion, hstage]
    rfl
  · rw [hstage]
    exact todo_lt 6 raw todo

/-! ## Admitting it -/

theorem Coherent.engage (h : s.Coherent setup) {result : ResolutionResult}
    (hstage : s.stage = .engaging result) (pool : Option Pool) (tried : Bool) :
    Advances setup s
      { s with pool := pool, poolEngageTried := tried, stage := .recycling result } := by
  have hok := h.stage
  simp only [StageOk, hstage] at hok
  refine h.advances (h.sameTurn rfl rfl rfl rfl) (ne_of_stage hstage nofun) nofun hok ?_ ?_
  · simp only [completion, hstage]
  · rw [hstage]
    exact rank_lt (by decide)

theorem touches_edgeWrites (result : ResolutionResult) {w : Write}
    (hw : w ∈ edgeWrites setup result) : Touches [] w := by
  obtain ⟨part, -, rfl⟩ := List.mem_map.mp hw
  trivial

theorem Coherent.recycle (h : s.Coherent setup) {result : ResolutionResult}
    (hstage : s.stage = .recycling result) (pool : Option Pool) (batches : Nat) :
    Advances setup s { s with
      pool := pool
      batchesSinceRecycle := batches
      stage := .inserting result (edgeWrites setup result) } := by
  have hok := h.stage
  simp only [StageOk, hstage] at hok
  refine h.advances (h.sameTurn rfl rfl rfl rfl) (ne_of_stage hstage nofun) nofun ?_ ?_ ?_
  · exact ⟨hok.1, hok.2, fun w hw => touches_edgeWrites result hw⟩
  · simp only [completion, hstage]
    rfl
  · rw [hstage]
    exact rank_lt (by decide)

theorem Coherent.insert (h : s.Coherent setup) {result : ResolutionResult} {w : Write}
    {todo : List Write} (hstage : s.stage = .inserting result (w :: todo)) :
    Advances setup s { s.write setup w with stage := .inserting result todo } := by
  have hok := h.stage
  simp only [StageOk, hstage] at hok
  obtain ⟨hpresent, hanswers, htouches⟩ := hok
  have hw : Touches [] w := htouches w (List.mem_cons_self ..)
  refine h.advances (h.sameTurn_write (Touches.of_nil hw) rfl rfl rfl rfl) (ne_of_stage hstage nofun)
    nofun ?_ ?_ ?_
  · refine ⟨?_, hanswers, fun x hx => htouches x (List.mem_cons_of_mem _ hx)⟩
    exact present_write hw hpresent fun id _ => List.not_mem_nil
  · simp only [completion, hstage]
    rfl
  · rw [hstage]
    exact todo_lt 3 w todo

variable (setup) in
/-- What is begun is the next batch, none of it answered. -/
theorem beginBatch_spec (s : Loop) : ∃ mode chunks,
    s.beginBatch = { s with nextMode := mode, chunks := chunks } ∧
      (mode = .pool → s.beginBatch.FannedOut setup s.nextBatch) := by
  unfold Loop.beginBatch
  split
  · refine ⟨_, _, rfl, fun _ => ⟨?_, ?_⟩⟩
    · rw [List.map_map]
      show ((slices CHUNK_SIZE s.nextBatch).map id).flatten = s.nextBatch
      rw [List.map_id, slices_flatten (by decide)]
    · intro c hc
      obtain ⟨refs, -, rfl⟩ := List.mem_map.mp hc
      exact ⟨[], rfl, rfl⟩
  · exact ⟨_, _, rfl, nofun⟩

theorem Coherent.beginBatch (h : s.Coherent setup) {result : ResolutionResult}
    (hstage : s.stage = .inserting result []) :
    Advances setup s { s.beginBatch with
      removedThisBatch := 0
      stage := .deleting result (deleteWrites result) } := by
  have hok := h.stage
  simp only [StageOk, hstage] at hok
  obtain ⟨hpresent, hanswers, -⟩ := hok
  obtain ⟨mode, chunks, hbegin, hfanned⟩ := beginBatch_spec setup s
  rw [hbegin] at hfanned ⊢
  refine h.advances (h.sameTurn rfl rfl rfl rfl) (ne_of_stage hstage nofun) nofun ?_ ?_ ?_
  · refine ⟨fun hmode => (hfanned hmode).congr rfl rfl, hanswers,
      fun w hw => hanswers.cleans_deleteWrites hw, ?_⟩
    by_cases hresolved : result.resolved = []
    · have hnil : deleteWrites result = [] := by rw [deleteWrites, hresolved]; rfl
      exact Or.inr (Or.inr ⟨hnil, hresolved, hpresent⟩)
    · exact Or.inr (Or.inl (hanswers.deleteWrites_changes hresolved setup.getNodeById hpresent))
  · simp only [completion, hstage]
    rfl
  · rw [hstage]
    exact rank_lt (by decide)

/-- Transactions on references leave the answers of the workers what they are. -/
theorem FannedOut.write {batch : List RefRow} (h : s.FannedOut setup batch) {rowIds : List Nat}
    {w : Write} (hw : Cleans rowIds w) : (s.write setup w).FannedOut setup batch where
  flatten := h.flatten
  answered c hc := by
    obtain ⟨done, hrefs, hout⟩ := h.answered c hc
    refine ⟨done, hrefs, ?_⟩
    have hedges := hw.edges setup.getNodeById s.session.toStore
    rw [hout]
    exact congrArg (fun edges => setup.resolveListForAdmission edges done) hedges.symm

theorem Effective.removed {w : Write} {todo : List Write} (h : s.Effective setup (w :: todo)) :
    0 < (s.write setup w).removedThisBatch := by
  obtain ⟨first, writes, heq, hchanges⟩ := h
  obtain ⟨rfl, rfl⟩ := List.cons.inj heq
  show 0 < s.removedThisBatch + _
  omega

theorem Coherent.delete (h : s.Coherent setup) {result : ResolutionResult} {w : Write}
    {todo : List Write} (hstage : s.stage = .deleting result (w :: todo)) :
    Advances setup s { s.write setup w with stage := .deleting result todo } := by
  have hok := h.stage
  simp only [StageOk, hstage] at hok
  obtain ⟨hfanned, hanswers, hcleans, hremoved⟩ := hok
  have hw := hcleans w (List.mem_cons_self ..)
  refine h.advances (h.sameTurn_write hw.touches rfl rfl rfl rfl) (ne_of_stage hstage nofun)
    nofun ?_ ?_ ?_
  · refine ⟨fun hmode => ?_, hanswers, fun x hx => hcleans x (List.mem_cons_of_mem _ hx), ?_⟩
    · exact ((hfanned hmode).write hw).congr rfl rfl
    · rcases hremoved with hremoved | heffective | ⟨hnil, -⟩
      · exact Or.inl (Nat.lt_of_lt_of_le hremoved (Nat.le_add_right _ _))
      · exact Or.inl heffective.removed
      · cases hnil
  · simp only [completion, hstage]
    rfl
  · rw [hstage]
    exact todo_lt 2 w todo

theorem Coherent.park (h : s.Coherent setup) {result : ResolutionResult}
    (hstage : s.stage = .deleting result []) :
    Advances setup s { s with
      stage := .parking result
        (result.unresolved.length - (s.session.nonDeferredFailures result.unresolved).length)
        (parkWrites (s.session.nonDeferredFailures result.unresolved)) } := by
  have hok := h.stage
  simp only [StageOk, hstage] at hok
  obtain ⟨hfanned, hanswers, -, hremoved⟩ := hok
  have hall := hanswers.nonDeferredFailures s.session
  refine h.advances (h.sameTurn rfl rfl rfl rfl) (ne_of_stage hstage nofun) nofun ?_ ?_ ?_
  · refine ⟨fun hmode => (hfanned hmode).congr rfl rfl,
      fun w hw => hall.cleans_parkWrites hw, ?_⟩
    rcases hremoved with hremoved | ⟨_, _, hcons, _⟩ | ⟨-, hresolved, hpresent⟩
    · exact Or.inl (Nat.lt_of_lt_of_le hremoved (Nat.le_add_right _ _))
    · cases hcons
    · -- Nothing was resolved, so a row is deferred or there is one to park.
      by_cases hfailures : s.session.nonDeferredFailures result.unresolved = []
      · have hlength := hanswers.length
        have hbatch := List.length_pos_iff.mpr (h.running (ne_of_stage hstage nofun))
        simp only [hresolved, List.length_nil, rowIds, List.length_map] at hlength
        simp only [hfailures, List.length_nil]
        exact Or.inl (by omega)
      · exact Or.inr (hall.parkWrites_changes hfailures setup.getNodeById hpresent)
  · simp only [completion, hstage]
    rfl
  · rw [hstage]
    exact rank_lt (by decide)

theorem Coherent.mark (h : s.Coherent setup) {result : ResolutionResult} {deferredCount : Nat}
    {w : Write} {todo : List Write} (hstage : s.stage = .parking result deferredCount (w :: todo)) :
    Advances setup s { s.write setup w with stage := .parking result deferredCount todo } := by
  have hok := h.stage
  simp only [StageOk, hstage] at hok
  obtain ⟨hfanned, hcleans, hremoved⟩ := hok
  have hw := hcleans w (List.mem_cons_self ..)
  refine h.advances (h.sameTurn_write hw.touches rfl rfl rfl rfl) (ne_of_stage hstage nofun)
    nofun ?_ ?_ ?_
  · refine ⟨fun hmode => ?_, fun x hx => hcleans x (List.mem_cons_of_mem _ hx), ?_⟩
    · exact ((hfanned hmode).write hw).congr rfl rfl
    · apply Or.inl
      rcases hremoved with hremoved | heffective
      · show 0 < s.removedThisBatch + _ + deferredCount
        omega
      · exact Nat.lt_of_lt_of_le heffective.removed (Nat.le_add_right _ _)
  · simp only [completion, hstage]
    rfl
  · rw [hstage]
    exact todo_lt 1 w todo

/-- The guard is not met, and the next turn begins. -/
theorem Coherent.endTurn (h : s.Coherent setup) {result : ResolutionResult} {deferredCount : Nat}
    (hstage : s.stage = .parking result deferredCount []) :
    Advances setup s
      (Loop.endTurn setup { s with session := s.session.aggregate result s.batch }
        deferredCount) := by
  have hok := h.stage
  simp only [StageOk, hstage] at hok
  obtain ⟨hfanned, -, hremoved⟩ := hok
  have hpositive : s.removedThisBatch + deferredCount ≠ 0 := by
    rcases hremoved with hremoved | ⟨_, _, hcons, _⟩
    · omega
    · cases hcons
  rw [Loop.endTurn, if_neg hpositive]
  have hnodup := h.nodup
  rw [List.map_append, List.nodup_append] at hnodup
  have hturn : AtTurn setup { s with session := s.session.aggregate result s.batch } :=
    { sorted := h.sorted
      present := h.present
      nodup := hnodup.2.1
      fannedOut := fun hmode => (hfanned hmode).congr rfl rfl }
  obtain ⟨hcoherent, houtcome, hturns⟩ := hturn.advance
  refine ⟨hcoherent, ?_, ?_⟩
  · rw [houtcome, outcome]
    simp only [completion, hstage]
    rfl
  · apply Prod.Lex.toLex_lt_toLex.mpr
    apply Or.inl
    have hs : s.turns setup = (s.ahead setup).length + 1 := by
      have hne : s.stage ≠ .finished := by
        rw [hstage]
        exact Stage.noConfusion
      rw [turns, if_neg hne]
    show _ < s.turns setup
    rw [hs]
    exact hturns

/-! ## The main thread -/

theorem Coherent.main (h : s.Coherent setup) (ht : s.main setup = some t) :
    Advances setup s t := by
  unfold Loop.main at ht
  split at ht
  case h_1 hstage =>
    split at ht
    · cases ht
      exact h.resolve hstage s.pool
    · rename_i hmode
      exact h.settlePool hstage hmode ht
  case h_2 hstage =>
    cases ht
    exact h.attempt hstage
  case h_3 result hstage =>
    cases ht
    have hok := h.stage
    simp only [StageOk, hstage] at hok
    obtain ⟨hpresent, done, hbatch, hanswers⟩ := hok
    rw [List.append_nil] at hbatch
    refine h.advances (h.sameTurn rfl rfl rfl rfl) (ne_of_stage hstage nofun) nofun ?_ ?_ ?_
    · refine ⟨hpresent, ?_⟩
      show Answers (s.batch.map (·.id)) result
      rw [hbatch]
      exact hanswers
    · simp only [completion, hstage]
      rfl
    · rw [hstage]
      exact rank_lt (by decide)
  case h_4 hstage =>
    cases ht
    exact h.engage hstage s.pool s.poolEngageTried
  case h_5 hstage =>
    simp only at ht
    split at ht
    · split at ht
      · cases ht
        exact h.recycle hstage s.pool (s.batchesSinceRecycle + 1)
      · cases ht
    · cases ht
      exact h.recycle hstage s.pool s.batchesSinceRecycle
  case h_6 hstage =>
    cases ht
    exact h.insert hstage
  case h_7 hstage =>
    cases ht
    exact h.beginBatch hstage
  case h_8 hstage =>
    cases ht
    exact h.delete hstage
  case h_9 hstage =>
    cases ht
    exact h.park hstage
  case h_10 hstage =>
    cases ht
    exact h.mark hstage
  case h_11 hstage =>
    cases ht
    exact h.endTurn hstage
  case h_12 => cases ht

/-! ## The pool -/

/-- A step of the pool leaves the stage and what it relies on as they are. -/
theorem Coherent.poolStep (h : s.Coherent setup) (pool : Option Pool) (chunks : List Chunk)
    (hfanned : ∀ batch, s.FannedOut setup batch →
      ({ s with chunks := chunks } : Loop).FannedOut setup batch)
    (hevents : ({ s with pool := pool, chunks := chunks } : Loop).poolEvents < s.poolEvents) :
    Advances setup s { s with pool := pool, chunks := chunks } where
  coherent :=
    { sorted := h.sorted
      present := h.present
      nodup := h.nodup
      running := h.running
      finished := h.finished
      stage := by
        have hok := h.stage
        cases hstage : s.stage with
        | settling =>
            simp only [StageOk, hstage] at hok ⊢
            exact ⟨fun hmode => (hfanned _ (hok.1 hmode)).congr rfl rfl, hok.2⟩
        | deleting result todo =>
            simp only [StageOk, hstage] at hok ⊢
            exact ⟨fun hmode => (hfanned _ (hok.1 hmode)).congr rfl rfl, hok.2⟩
        | parking result deferredCount todo =>
            simp only [StageOk, hstage] at hok ⊢
            exact ⟨fun hmode => (hfanned _ (hok.1 hmode)).congr rfl rfl, hok.2⟩
        | finished => simp only [StageOk]
        | _ =>
            simp only [StageOk, hstage] at hok ⊢
            exact hok }
  outcome := rfl
  measure := by
    apply Prod.Lex.toLex_lt_toLex.mpr
    apply Or.inr
    refine ⟨rfl, ?_⟩
    apply Prod.Lex.toLex_lt_toLex.mpr
    exact Or.inr ⟨rfl, hevents⟩

def events (c : Chunk) : Nat := c.todo.length + if c.rejected then 0 else 1

theorem set_split {chunk : Chunk} {index : Nat} (hchunk : s.chunks[index]? = some chunk)
    (chunk' : Chunk) :
    ∃ before after, s.chunks = before ++ chunk :: after ∧
      s.chunks.set index chunk' = before ++ chunk' :: after := by
  obtain ⟨hindex, rfl⟩ := List.getElem?_eq_some_iff.mp hchunk
  refine ⟨s.chunks.take index, s.chunks.drop (index + 1), ?_, ?_⟩
  · rw [List.getElem_cons_drop, List.take_append_drop]
  · exact List.set_eq_take_append_cons_drop ▸ by rw [if_pos hindex]

/-- One worker goes on, and the others stay where they are. -/
theorem Coherent.setChunk (h : s.Coherent setup) {chunk chunk' : Chunk} {index : Nat}
    (hchunk : s.chunks[index]? = some chunk) (hrefs : chunk'.refs = chunk.refs)
    (hanswered : (∃ done, chunk.refs = done ++ chunk.todo ∧
        chunk.out = setup.resolveListForAdmission s.session.edges done) →
      ∃ done, chunk'.refs = done ++ chunk'.todo ∧
        chunk'.out = setup.resolveListForAdmission s.session.edges done)
    (hevents : events chunk' < events chunk) :
    Advances setup s { s with chunks := s.chunks.set index chunk' } := by
  obtain ⟨before, after, hsplit, hset⟩ := set_split hchunk chunk'
  rw [hset]
  apply h.poolStep s.pool
  · intro batch hbatch
    obtain ⟨hflatten, hall⟩ := hbatch
    rw [hsplit] at hflatten hall
    refine ⟨?_, ?_⟩
    · rw [← hflatten]
      simp [hrefs]
    · intro c hc
      rcases List.mem_append.mp hc with hc | hc
      · exact hall c (List.mem_append_left _ hc)
      · rcases List.mem_cons.mp hc with rfl | hc
        · exact hanswered (hall chunk (by simp))
        · exact hall c (List.mem_append_right _ (List.mem_cons_of_mem _ hc))
  · simp only [events] at hevents
    simp only [poolEvents, hsplit, List.map_append, List.map_cons, List.sum_append,
      List.sum_cons]
    omega

theorem Coherent.work (h : s.Coherent setup) {index : Nat} (ht : s.work setup index = some t) :
    Advances setup s t := by
  obtain ⟨chunk, hchunk, hwork⟩ := Option.bind_eq_some_iff.mp ht
  cases htodo : chunk.todo with
  | nil =>
      simp only [htodo] at hwork
      cases hwork
  | cons raw todo =>
      simp only [htodo, Option.some.injEq] at hwork
      rw [← hwork]
      refine h.setChunk hchunk rfl ?_ ?_
      · rintro ⟨done, hrefs, hout⟩
        refine ⟨done ++ [raw], ?_, ?_⟩
        · rw [hrefs, htodo, List.append_assoc]
          rfl
        · simp only [Setup.resolveListForAdmission, List.foldl_append, hout]
          rfl
      · simp [events, htodo]

theorem Coherent.reject (h : s.Coherent setup) {index : Nat} (ht : s.reject index = some t) :
    Advances setup s t := by
  obtain ⟨chunk, hchunk, hreject⟩ := Option.bind_eq_some_iff.mp ht
  cases hrejected : chunk.rejected with
  | true =>
      simp only [hrejected, if_true] at hreject
      cases hreject
  | false =>
      simp only [hrejected, Bool.false_eq_true, if_false, Option.some.injEq] at hreject
      rw [← hreject]
      refine h.setChunk hchunk rfl (fun hanswered => hanswered) ?_
      simp [events, hrejected]

/-! ## Runs -/

/-- Every step keeps the outcome and gets closer to the end. -/
theorem Coherent.step (h : s.Coherent setup) {label : Label}
    (ht : Loop.step setup s label = some t) : Advances setup s t := by
  cases label with
  | main => exact h.main ht
  | engage created =>
      simp only [Loop.step] at ht
      split at ht
      · rename_i hstage
        split at ht
        · cases ht
          exact h.engage hstage _ true
        · cases ht
      · cases ht
  | recycle recycled =>
      simp only [Loop.step] at ht
      split at ht
      · rename_i hstage
        split at ht
        · cases ht
          exact h.recycle hstage _ 0
        · cases ht
      · cases ht
  | poolReady =>
      simp only [Loop.step] at ht
      split at ht
      · rename_i hpool
        cases ht
        apply h.poolStep _ s.chunks (fun _ hfanned => hfanned)
        simp [poolEvents, hpool]
      · cases ht
  | poolFails =>
      simp only [Loop.step] at ht
      split at ht
      · rename_i hpool
        cases ht
        apply h.poolStep _ s.chunks (fun _ hfanned => hfanned)
        simp [poolEvents, hpool]
      · cases ht
  | work index => exact h.work ht
  | reject index => exact h.reject ht

/-- A state that accepts nothing more has read and admitted all batches. -/
theorem finished_of_stuck (h : (Loop.step setup).Stuck s) : s.stage = .finished := by
  have hmain : s.main setup = none := h .main
  cases hstage : s.stage with
  | finished => rfl
  | settling =>
      simp only [Loop.main, hstage] at hmain
      cases hmode : s.mode with
      | seq =>
          rw [hmode] at hmain
          cases hmain
      | pool =>
          -- No worker can go on, so all of them have answered.
          rw [hmode] at hmain
          simp only [Loop.settlePool] at hmain
          split at hmain
          · cases hmain
          · split at hmain
            · cases hmain
            · rename_i hopen
              simp only [Bool.not_eq_true, List.all_eq_false, decide_eq_true_eq] at hopen
              obtain ⟨chunk, hchunk, htodo⟩ := hopen
              obtain ⟨index, hindex⟩ := List.getElem?_of_mem hchunk
              obtain ⟨raw, todo, hcons⟩ := List.exists_cons_of_ne_nil htodo
              have hwork : s.work setup index = none := h (.work index)
              simp [Loop.work, hindex, hcons] at hwork
  | resolving todo result => cases todo <;> simp [Loop.main, hstage] at hmain
  | engaging => simp [Loop.main, hstage] at hmain
  | recycling =>
      have hrecycle : Loop.step setup s (.recycle true) = none := h _
      simp only [Loop.step, hstage] at hrecycle
      simp only [Loop.main, hstage] at hmain
      split at hmain
      · rename_i hpool
        split at hmain
        · cases hmain
        · rename_i hbatches
          have hcond : (s.pool = some .ready &&
              decide (RECYCLE_EVERY_BATCHES ≤ s.batchesSinceRecycle + 1)) = true := by
            rw [decide_eq_true hpool, Bool.true_and]
            exact decide_eq_true (by omega)
          rw [if_pos hcond] at hrecycle
          cases hrecycle
      · cases hmain
  | inserting result todo => cases todo <;> simp [Loop.main, hstage] at hmain
  | deleting result todo => cases todo <;> simp [Loop.main, hstage] at hmain
  | parking result deferredCount todo => cases todo <;> simp [Loop.main, hstage] at hmain

theorem Coherent.halts (h : s.Coherent setup) : (Loop.step setup).Halts s :=
  Machine.halts_of_measure (InvImage.wf (Loop.measure setup) wellFounded_lt)
    (fun _ _ _ h ht => (h.step ht).coherent) (fun _ _ _ h ht => (h.step ht).measure) h

/-! ## The start -/

section Start

variable {input : Input}

theorem nodup_batchesAhead {refs : List RefRow} (h : Sorted refs) :
    ((batchesAhead refs setup.batchSize ⟨true, 0⟩).flatten.map (·.id)).Nodup := by
  have hsize := setup.batchSize_pos
  simp only [batchesAhead, if_true, List.flatten_append, slices_flatten hsize, List.map_append]
  rw [List.nodup_append]
  refine ⟨(sorted_pendingRows h 0 true).nodup, (sorted_pendingRows h 0 false).nodup, ?_⟩
  intro id hid other hother heq
  obtain ⟨row, hrow, rfl⟩ := List.mem_map.mp hid
  obtain ⟨row', hrow', rfl⟩ := List.mem_map.mp hother
  obtain ⟨hmem, -, -, hkind⟩ := mem_pendingRows.mp hrow
  obtain ⟨hmem', -, -, hkind'⟩ := mem_pendingRows.mp hrow'
  have hsame : row = row' := List.inj_on_of_nodup_map h.nodup hmem hmem' heq
  rw [hsame, hkind'] at hkind
  cases hkind

theorem start_spec (created : Bool) : (start setup input created).Coherent setup ∧
    (start setup input created).outcome setup = setup.sequential input := by
  let s : Loop :=
    { session := input.session
      pool := if (setup.parallel && decide (setup.minRefsForPool ≤
        getUnresolvedReferencesCount input.refs.rows)) && created then some .booting else none
      poolEngageTried := setup.parallel && decide (setup.minRefsForPool ≤
        getUnresolvedReferencesCount input.refs.rows)
      batchesSinceRecycle := 0
      chunks := []
      cursor := ⟨true, 0⟩
      batch := []
      mode := .seq
      nextBatch := []
      nextMode := .seq
      stage := .finished
      removedThisBatch := 0
      prevRemaining := none }
  have hstart : start setup input created = (s.read setup).beginBatch.advance setup := rfl
  obtain ⟨mode, chunks, hbegin, hfanned⟩ := beginBatch_spec setup (s.read setup)
  have hsorted : Sorted s.session.refs := input.refs.sorted
  have hahead : (s.read setup).beginBatch.ahead setup =
      batchesAhead input.refs.rows setup.batchSize ⟨true, 0⟩ := by
    rw [hbegin]
    exact ahead_read hsorted
  have hturn : AtTurn setup (s.read setup).beginBatch :=
    { sorted := by
        rw [hbegin]
        exact hsorted
      present := by
        rw [hbegin]
        exact present_of_mem fun row hrow => mem_readNextBatch hrow
      nodup := by
        rw [hahead]
        exact nodup_batchesAhead hsorted
      fannedOut := by
        rw [hbegin] at hfanned ⊢
        exact hfanned }
  obtain ⟨hcoherent, houtcome, -⟩ := hturn.advance
  rw [hstart]
  refine ⟨hcoherent, ?_⟩
  rw [houtcome, hahead, hbegin]
  rfl

theorem Coherent.session_of_finished (h : s.Coherent setup) (hstage : s.stage = .finished) :
    s.session = s.outcome setup := by
  rw [outcome, ahead, if_pos (h.finished hstage)]
  simp only [completion, hstage]
  rfl

end Start

end Loop

end AfyxGraph.Resolution
