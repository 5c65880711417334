import AfyxGraph.Ui.LinkRoundTrip

/-! # The run a saved trail opens

The server's scan keeps the best run closed so far and where the open one began. Behind the last
hop it has the first longest run of hops that resolved, and the text it writes for that run is
read back as its hops, the first of them marked as the start.
-/

namespace AfyxGraph.Ui

open AfyxGraph.Core AfyxGraph.Core.Percent

def Resolved (hops : List WireTrailHop) (i : Nat) : Prop :=
  ∃ hop, hops[i]? = some hop ∧ hop.id.isSome = true

/-- Consecutive hops that all resolved. -/
def IsRun (hops : List WireTrailHop) (start length : Nat) : Prop :=
  ∀ i, start ≤ i → i < start + length → Resolved hops i

structure FirstLongest (hops : List WireTrailHop) (start length : Nat) : Prop where
  run : IsRun hops start length
  longest : ∀ s n, IsRun hops s n → n ≤ length
  first : ∀ s, IsRun hops s length → 0 < length → start ≤ s

/-! ## The scan -/

/-- Where the hops begin that are in no closed run. -/
def RunScan.cut (s : RunScan) (i : Nat) : Nat := s.start.getD i

structure ScanInv (hops : List WireTrailHop) (i : Nat) (s : RunScan) : Prop where
  cut_le : s.cut i ≤ i
  openRun : IsRun hops (s.cut i) (i - s.cut i)
  edge : s.cut i = 0 ∨ ¬ Resolved hops (s.cut i - 1)
  best : IsRun hops s.bestStart s.bestLength
  within : s.bestLength ≠ 0 → s.bestStart + s.bestLength ≤ s.cut i
  longest : ∀ start n, IsRun hops start n → start + n ≤ s.cut i → n ≤ s.bestLength
  first : ∀ start, IsRun hops start s.bestLength → 0 < s.bestLength →
    start + s.bestLength ≤ s.cut i → s.bestStart ≤ start

theorem isRun_zero (hops : List WireTrailHop) (start : Nat) : IsRun hops start 0 := by
  intro i hle hlt
  omega

theorem scanInv_start (hops : List WireTrailHop) : ScanInv hops 0 {} where
  cut_le := Nat.le_refl 0
  openRun := isRun_zero hops 0
  edge := .inl rfl
  best := isRun_zero hops 0
  within h := absurd rfl h
  longest start n _ h := by
    have hcut : RunScan.cut {} 0 = 0 := rfl
    omega
  first _ _ h := absurd h (Nat.lt_irrefl 0)

theorem ScanInv.resolved {hops : List WireTrailHop} {i : Nat} {s : RunScan}
    (h : ScanInv hops i s) (hi : Resolved hops i) : ScanInv hops (i + 1) (s.turn i true) := by
  have hcut : (s.turn i true).cut (i + 1) = s.cut i := rfl
  refine ⟨?_, ?_, ?_, h.best, ?_, ?_, ?_⟩
  · rw [hcut]
    exact Nat.le_succ_of_le h.cut_le
  · rw [hcut]
    intro j hle hlt
    by_cases hj : j = i
    · exact hj ▸ hi
    · have hcut_le := h.cut_le
      exact h.openRun j hle (by omega)
  · rw [hcut]
    exact h.edge
  · rw [hcut]
    exact h.within
  · rw [hcut]
    exact h.longest
  · rw [hcut]
    exact h.first

/-- A run that ends no later than an unresolved hop lies before the open run or inside it. -/
theorem ScanInv.run_place {hops : List WireTrailHop} {i : Nat} {s : RunScan}
    (h : ScanInv hops i s) (hi : ¬ Resolved hops i) {start n : Nat} (hrun : IsRun hops start n)
    (hpos : 0 < n) (hle : start + n ≤ i + 1) :
    start + n ≤ s.cut i ∨ (s.cut i ≤ start ∧ start + n ≤ i) := by
  have hend : start + n ≤ i := by
    by_contra hlong
    have hlast := hrun (start + n - 1) (by omega) (by omega)
    have heq : start + n - 1 = i := by omega
    rw [heq] at hlast
    exact hi hlast
  by_cases hbefore : start + n ≤ s.cut i
  · exact .inl hbefore
  · right
    refine ⟨?_, hend⟩
    by_contra hearly
    rcases h.edge with hzero | hedge
    · omega
    · exact hedge (hrun (s.cut i - 1) (by omega) (by omega))

theorem turn_false_cases (s : RunScan) (i : Nat) :
    (s.turn i false).start = none ∧
      ((s.bestLength < i - s.cut i ∧ (s.turn i false).bestStart = s.cut i ∧
          (s.turn i false).bestLength = i - s.cut i) ∨
        (i - s.cut i ≤ s.bestLength ∧ (s.turn i false).bestStart = s.bestStart ∧
          (s.turn i false).bestLength = s.bestLength)) := by
  obtain ⟨bestStart, bestLength, start⟩ := s
  cases start with
  | none =>
      refine ⟨rfl, .inr ⟨?_, rfl, rfl⟩⟩
      simp only [RunScan.cut, Option.getD_none]
      omega
  | some start =>
      simp only [RunScan.turn, RunScan.cut, Option.getD_some, Bool.false_eq_true, if_false]
      by_cases hlonger : bestLength < i - start
      · rw [if_pos hlonger]
        exact ⟨rfl, .inl ⟨hlonger, rfl, rfl⟩⟩
      · rw [if_neg hlonger]
        exact ⟨rfl, .inr ⟨by omega, rfl, rfl⟩⟩

theorem ScanInv.unresolved {hops : List WireTrailHop} {i : Nat} {s : RunScan}
    (h : ScanInv hops i s) (hi : ¬ Resolved hops i) : ScanInv hops (i + 1) (s.turn i false) := by
  obtain ⟨hstart, hbest⟩ := turn_false_cases s i
  have hcut : (s.turn i false).cut (i + 1) = i + 1 := by rw [RunScan.cut, hstart]; rfl
  have hcut_le := h.cut_le
  have hedge : (s.turn i false).cut (i + 1) = 0 ∨
      ¬ Resolved hops ((s.turn i false).cut (i + 1) - 1) := by
    rw [hcut]
    exact .inr hi
  have hopen : IsRun hops ((s.turn i false).cut (i + 1)) (i + 1 - (s.turn i false).cut (i + 1)) := by
    rw [hcut, Nat.sub_self]
    exact isRun_zero hops _
  rcases hbest with ⟨hlonger, hbestStart, hbestLength⟩ | ⟨hshorter, hbestStart, hbestLength⟩
  · -- The open run becomes the best one.
    refine ⟨Nat.le_of_eq hcut, hopen, hedge, ?_, ?_, ?_, ?_⟩
    · rw [hbestStart, hbestLength]
      exact h.openRun
    · rw [hbestStart, hbestLength, hcut]
      omega
    · intro start n hrun hle
      rw [hcut] at hle
      rw [hbestLength]
      rcases Nat.eq_zero_or_pos n with hn | hn
      · omega
      · rcases h.run_place hi hrun hn hle with hplace | hplace
        · have hold := h.longest start n hrun hplace
          omega
        · omega
    · intro start hrun hpos hle
      rw [hbestLength] at hrun hpos hle
      rw [hcut] at hle
      rw [hbestStart]
      rcases h.run_place hi hrun hpos hle with hplace | hplace
      · have hold := h.longest start _ hrun hplace
        omega
      · exact hplace.1
  · -- The open run is dropped: an earlier one is as long.
    refine ⟨Nat.le_of_eq hcut, hopen, hedge, ?_, ?_, ?_, ?_⟩
    · rw [hbestStart, hbestLength]
      exact h.best
    · intro hne
      rw [hbestLength] at hne
      have hwithin := h.within hne
      rw [hbestStart, hbestLength, hcut]
      omega
    · intro start n hrun hle
      rw [hcut] at hle
      rw [hbestLength]
      rcases Nat.eq_zero_or_pos n with hn | hn
      · omega
      · rcases h.run_place hi hrun hn hle with hplace | hplace
        · exact h.longest start n hrun hplace
        · omega
    · intro start hrun hpos hle
      rw [hbestLength] at hrun hpos hle
      rw [hcut] at hle
      rw [hbestStart]
      rcases h.run_place hi hrun hpos hle with hplace | hplace
      · exact h.first start hrun hpos hplace
      · have hwithin := h.within (by omega)
        omega

theorem loop_inv (hops : List WireTrailHop) {rest : List WireTrailHop} {i : Nat} {s : RunScan}
    (hrest : hops.drop i = rest) (h : ScanInv hops i s) :
    ∃ last, (RunScan.loop rest i s).start = none ∧ hops.length < last ∧
      ScanInv hops last (RunScan.loop rest i s) := by
  induction rest generalizing i s with
  | nil =>
      have hlength : hops.length ≤ i := List.drop_eq_nil_iff.mp hrest
      have hi : ¬ Resolved hops i := by
        rintro ⟨hop, hget, -⟩
        rw [List.getElem?_eq_none hlength] at hget
        cases hget
      exact ⟨i + 1, (turn_false_cases s i).1, by omega, h.unresolved hi⟩
  | cons hop rest ih =>
      have hget : hops[i]? = some hop := by
        rw [← List.head?_drop, hrest]
        rfl
      have hnext : hops.drop (i + 1) = rest := by
        rw [← List.drop_drop, hrest]
        rfl
      rw [RunScan.loop]
      cases hid : hop.id.isSome with
      | true => exact ih hnext (h.resolved ⟨hop, hget, hid⟩)
      | false =>
          apply ih hnext (h.unresolved ?_)
          rintro ⟨other, hother, hsome⟩
          obtain rfl := Option.some.inj (hget.symm.trans hother)
          rw [hid] at hsome
          cases hsome

/-- The scan ends with the first longest run. -/
theorem loop_firstLongest (hops : List WireTrailHop) :
    FirstLongest hops (RunScan.loop hops 0 {}).bestStart (RunScan.loop hops 0 {}).bestLength := by
  obtain ⟨last, hstart, hlast, h⟩ := loop_inv hops List.drop_zero (scanInv_start hops)
  have hcut : (RunScan.loop hops 0 {}).cut last = last := by rw [RunScan.cut, hstart]; rfl
  have hend : ∀ start n, IsRun hops start n → 0 < n → start + n ≤ last := by
    intro start n hrun hpos
    obtain ⟨hop, hget, -⟩ := hrun (start + n - 1) (by omega) (by omega)
    have hlt := (List.getElem?_eq_some_iff.mp hget).1
    omega
  refine ⟨h.best, ?_, ?_⟩
  · intro start n hrun
    rcases Nat.eq_zero_or_pos n with hn | hn
    · omega
    · exact h.longest start n hrun (by rw [hcut]; exact hend start n hrun hn)
  · intro start hrun hpos
    exact h.first start hrun hpos (by rw [hcut]; exact hend start _ hrun hpos)

/-! ## What is written and read back -/

/-- The hops of a run, the first of them the start. -/
def markStart : List WireTrailHop → List TrailHop
  | [] => []
  | first :: rest =>
      { id := first.id.getD [], name := none, kind := none, dir := .start } ::
        rest.map fun hop => { id := hop.id.getD [], name := none, kind := none, dir := hop.dir }

theorem runTokens_eq (run : List WireTrailHop) :
    runTokens run =
      (markStart run).map fun hop => dirToChar hop.dir :: encodeURIComponent hop.id := by
  cases run with
  | nil => rfl
  | cons first rest =>
      rw [markStart, List.map_cons, List.map_map]
      rfl

theorem mem_run {hops : List WireTrailHop} {start length : Nat} (hrun : IsRun hops start length)
    {hop : WireTrailHop} (h : hop ∈ (hops.drop start).take length) : hop.id.isSome = true := by
  obtain ⟨i, hi, rfl⟩ := List.mem_iff_getElem.mp h
  rw [List.length_take] at hi
  obtain ⟨other, hget, hsome⟩ := hrun (start + i) (by omega) (by omega)
  obtain ⟨hlt, rfl⟩ := List.getElem?_eq_some_iff.mp hget
  rw [List.getElem_take, List.getElem_drop]
  exact hsome

theorem decodeTrail_encodeResolvedRun {hops : List WireTrailHop}
    (hids : ∀ hop ∈ hops, hop.id ≠ some []) :
    ∃ start length, FirstLongest hops start length ∧
      decodeTrail (encodeResolvedRun hops).encoded =
        markStart ((hops.drop start).take length) := by
  have hbest := loop_firstLongest hops
  refine ⟨_, _, hbest, ?_⟩
  rw [encodeResolvedRun]
  simp only
  split
  · rename_i hzero
    rw [hzero, List.take_zero]
    rfl
  · rename_i hlength
    have hfull : ∀ hop ∈ (hops.drop (RunScan.loop hops 0 {}).bestStart).take
        (RunScan.loop hops 0 {}).bestLength, hop.id.getD [] ≠ [] := by
      intro hop hhop
      obtain ⟨id, hid⟩ := Option.isSome_iff_exists.mp (mem_run hbest.run hhop)
      have hne := hids hop (List.mem_of_mem_drop (List.mem_of_mem_take hhop))
      rw [hid] at hne ⊢
      exact fun h => hne (congrArg some h)
    obtain ⟨first, hfirst, -⟩ := hbest.run (RunScan.loop hops 0 {}).bestStart (Nat.le_refl _)
      (by omega)
    have hlt := (List.getElem?_eq_some_iff.mp hfirst).1
    generalize hrun : (hops.drop (RunScan.loop hops 0 {}).bestStart).take
      (RunScan.loop hops 0 {}).bestLength = run at hfull ⊢
    have hne : markStart run ≠ [] := by
      have hlen := congrArg List.length hrun
      rw [List.length_take, List.length_drop] at hlen
      cases run with
      | nil =>
          rw [List.length_nil] at hlen
          omega
      | cons hop rest => exact List.cons_ne_nil _ _
    have hmarked : ∀ hop ∈ markStart run, hop.id ≠ [] := by
      cases run with
      | nil => exact fun hop hhop => absurd hhop List.not_mem_nil
      | cons first rest =>
          intro hop hhop
          rcases List.mem_cons.mp hhop with rfl | hhop
          · exact hfull first (List.mem_cons_self ..)
          · obtain ⟨wire, hwire, rfl⟩ := List.mem_map.mp hhop
            exact hfull wire (List.mem_cons_of_mem _ hwire)
    rw [runTokens_eq, decodeTrail_tokens TrailHop.id TrailHop.dir _ hmarked hne]
    conv_rhs => rw [← List.map_id (markStart run)]
    apply List.map_congr_left
    intro hop hhop
    cases run with
    | nil => cases hhop
    | cons first rest =>
        rcases List.mem_cons.mp hhop with rfl | hhop
        · rfl
        · obtain ⟨wire, -, rfl⟩ := List.mem_map.mp hhop
          rfl

/-- Links round trip when no part of the id is empty and the line is not zero; the text of a saved
trail always gives back the first longest run. -/
theorem trailLinks_roundTrip (d : Bytes.TextDecoder) :
    (∀ (id : Text) (hops : List TrailHop) (line : Option Nat), id ≠ [] →
      (∀ h ∈ hops, h.id ≠ []) →
        (LinkRoundTrips d id hops line ↔ [] ∉ id.split '/' ∧ line ≠ some 0)) ∧
      ∀ hops : List WireTrailHop, (∀ hop ∈ hops, hop.id ≠ some []) →
        ∃ start length, FirstLongest hops start length ∧
          decodeTrail (encodeResolvedRun hops).encoded =
            markStart ((hops.drop start).take length) :=
  ⟨fun _ _ line hid hhops => linkRoundTrips_iff d hid hhops line,
    fun _ hids => decodeTrail_encodeResolvedRun hids⟩

/-- A file's link with a line and a trail of two hops, and a saved trail with a gap. -/
theorem trailLinks_roundTrip_file :
    LinkRoundTrips Bytes.strictDecoder "file:src/a b.ts".toList
        [⟨"class:1".toList, none, none, .start⟩, ⟨"file:src/a b.ts".toList, none, none, .up⟩]
        (some 7) ∧
      ∃ start length,
        FirstLongest [⟨some "a".toList, .start⟩, ⟨none, .down⟩, ⟨some "b".toList, .down⟩]
          start length := by
  constructor
  · refine ((trailLinks_roundTrip Bytes.strictDecoder).1 _ _ _ (by decide) ?_).mpr
      ⟨by decide, by decide⟩
    decide
  · obtain ⟨start, length, hbest, -⟩ := (trailLinks_roundTrip Bytes.strictDecoder).2
      [⟨some "a".toList, .start⟩, ⟨none, .down⟩, ⟨some "b".toList, .down⟩] (by decide)
    exact ⟨start, length, hbest⟩

/-- The id of a route to the root ends in a slash, and the link loses it. -/
theorem not_linkRoundTrips_rootRoute :
    ¬ LinkRoundTrips Bytes.strictDecoder "route:main.go:3:GET:/".toList [] none := by
  rw [linkRoundTrips_iff Bytes.strictDecoder (by decide) (fun h hh => absurd hh List.not_mem_nil)]
  decide

end AfyxGraph.Ui
