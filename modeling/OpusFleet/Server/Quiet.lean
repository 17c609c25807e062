import Mathlib.Algebra.Order.Ring.Rat
import OpusFleet.Server.Conservation

namespace OpusFleet.Server.Segmenter

open Python Library

/-- The segmenter together with the time at which each device's latest packet was consumed:
that at which `poll` returned it. -/
structure Watched where
  state : State
  heardAt : Str → Option ℚ≥0

variable (c : Env)

def Watched.next (w : Watched) (e : Event) (s : State) : Watched where
  state := s
  heardAt :=
    match opusOf e with
    | some (imei, _) => Function.update w.heardAt imei (some (c.clock w.state.ticks))
    | none => w.heardAt

def watch (w : Watched) (e : Event) : Option Watched := (step c w.state e).map (w.next c e)

def Watched.init : Watched := ⟨.init, fun _ ↦ none⟩

def tickedAt (s : State) : ℚ≥0 := c.clock (s.ticks + 1)

/-- After the iteration no device that was heard too long before it has pending packets. -/
def Prompt (w w' : Watched) : Prop :=
  ∀ imei h, w'.heardAt imei = some h →
    (h : ℚ) + (c.segmentSeconds * 2 + 1) < c.clock w.state.ticks → pending imei w'.state = []

/-- If the iteration is an idle tick, it closes no segment of a device heard recently. -/
def Patient (w : Watched) (e : Event) (w' : Watched) : Prop :=
  e = .idle → ∀ p ∈ w'.state.puts.drop w.state.puts.length,
    ∀ h, w.heardAt p.seg.imei = some h → (h : ℚ) + c.segmentSeconds * 2 < tickedAt c w.state

/-- A device that the iteration does not hear has gone quiet, and the iteration is no idle tick or
one that does not find its segment overdue. -/
def Neglects (w : Watched) (e : Event) : Prop :=
  ∃ seg h, w.state.segments.get seg.imei = some seg ∧ seg.packets ≠ [] ∧
    w.heardAt seg.imei = some h ∧ (h : ℚ) + (c.segmentSeconds * 2 + 1) < c.clock w.state.ticks ∧
    (∀ opus, opusOf e ≠ some (seg.imei, opus)) ∧ (e = .idle → ¬ seg.overdue c (tickedAt c w.state))

/-- The iteration is an idle tick, and a device heard recently has a segment that is overdue. -/
def Hurries (w : Watched) (e : Event) : Prop :=
  e = .idle ∧ ∃ seg h, w.state.segments.get seg.imei = some seg ∧ seg.packets ≠ [] ∧
    seg.overdue c (tickedAt c w.state) ∧ w.heardAt seg.imei = some h ∧
    (tickedAt c w.state : ℚ) ≤ h + c.segmentSeconds * 2

variable {c} {w w' : Watched} {s s' : State} {es : List Event} {e : Event}

theorem watch_cases (h : watch c w e = some w') :
    step c w.state e = some w'.state ∧ w' = w.next c e w'.state := by
  obtain ⟨s, hs, rfl⟩ := Option.map_eq_some_iff.mp h
  exact ⟨hs, rfl⟩

section Clock

def Past (c : Env) (s : State) : Prop :=
  ∀ imei seg, s.segments.get imei = some seg → seg.startedAt ≤ c.clock s.ticks

variable (hclock : Monotone c.clock)
include hclock

theorem past_reset (h : Past c s) (imei : Str) : Past c (s.reset c imei) := by
  have hnext : c.clock s.ticks ≤ c.clock (s.ticks + 1) := hclock (Nat.le_succ _)
  intro imei' seg hget
  rw [reset_get] at hget
  split at hget
  · obtain rfl := Option.some.inj hget
    exact hnext
  · exact (h imei' seg hget).trans hnext

theorem past_upload (h : Past c s) (p : Put) : Past c (s.upload c p) := by
  intro imei seg hget
  rw [upload_segments] at hget
  apply (h imei seg hget).trans (hclock _)
  rw [State.upload]
  split
  · exact Nat.le_succ _
  · exact le_rfl

theorem Flushes.past {ps : List Put} (hps : Flushes c s ps s') (h : Past c s) : Past c s' := by
  induction hps with
  | nil => exact h
  | cons _ _ _ ih => exact ih (past_reset hclock (past_upload hclock h _) _)

theorem past_tick (h : Past c s) : Past c s.tick :=
  fun imei seg hget ↦ (h imei seg hget).trans (hclock (Nat.le_succ _))

theorem past_take (h : Past c s) (e : Event) : Past c (s.take c e) := by
  rw [State.take]
  split
  · next imei opus _ =>
    have hticks : s.tick.ticks ≤ (s.tick.hear c imei opus).ticks := by
      rw [State.hear, State.segment]
      split
      · exact le_rfl
      · exact Nat.le_succ _
    intro imei' seg hget
    rw [hear_get] at hget
    split at hget
    · obtain rfl := Option.some.inj hget
      rcases held_cases (c := c) s.tick imei with hheld | ⟨-, hheld⟩
      · exact (past_tick hclock h imei _ hheld).trans (hclock hticks)
      · rw [hheld]
        exact hclock hticks
    · exact (past_tick hclock h imei' seg hget).trans (hclock hticks)
  · split
    · exact past_tick hclock (past_tick hclock h)
    · exact past_tick hclock h

end Clock

section Rounds

theorem Round.origin {ps : List Put} {imei : Str} {seg : DeviceSegment} (h : Round c s e ps s')
    (hget : s'.segments.get imei = some seg) (hne : seg.packets ≠ []) :
    (s.take c e).segments.get imei = some seg ∧
      ((∃ opus, opusOf e = some (imei, opus) ∧ seg = (s.tick.held c imei).add opus) ∨
        s.segments.get imei = some seg ∧ ∀ opus, opusOf e ≠ some (imei, opus)) := by
  rcases h.flushes.get hget with htaken | ⟨n, rfl⟩
  · refine ⟨htaken, ?_⟩
    cases hopus : opusOf e with
    | none =>
      rcases take_get htaken with hget' | ⟨opus, he, -⟩
      · exact .inr ⟨hget', by simp⟩
      · rw [hopus] at he
        cases he
    | some x =>
      obtain ⟨imei', opus⟩ := x
      by_cases himei : imei' = imei
      · subst himei
        rw [State.take, hopus, hear_get, if_pos rfl] at htaken
        exact .inl ⟨opus, rfl, (Option.some.inj htaken).symm⟩
      · rcases take_get htaken with hget' | ⟨opus', he, -⟩
        · exact .inr ⟨hget', by simp [himei]⟩
        · rw [hopus] at he
          exact absurd (congrArg Prod.fst (Option.some.inj he)) himei
  · exact absurd rfl hne

theorem next_heardAt (w : Watched) (s : State) {imei : Str} {opus : Bytes}
    (hopus : opusOf e = some (imei, opus)) :
    (w.next c e s).heardAt imei = some (c.clock w.state.ticks) := by
  rw [Watched.next, hopus]
  exact Function.update_self _ _ _

theorem next_heardAt_other (w : Watched) (s : State) {imei : Str}
    (hother : ∀ opus, opusOf e ≠ some (imei, opus)) :
    (w.next c e s).heardAt imei = w.heardAt imei := by
  rw [Watched.next]
  cases hopus : opusOf e with
  | none => rfl
  | some x =>
    obtain ⟨imei', opus⟩ := x
    apply Function.update_of_ne
    rintro rfl
    exact hother opus hopus

theorem watch_step (h : Intact c w.state) (hs : watch c w e = some w') :
    Intact c w'.state ∧ ∃ ps, Round c w.state e ps w'.state := by
  obtain ⟨ps, hround⟩ := step_round h.keyed (watch_cases hs).1
  exact ⟨hround.intact h, ps, hround⟩

theorem watch_intact (hrun : Runs.run (watch c) .init es = some w) : Intact c w.state :=
  Runs.run_induction (P := fun _ _ _ ↦ True) (I := fun _ w ↦ Intact c w.state) intact_init
    (fun _ _ _ _ _ h _ hs ↦ (watch_step h hs).1) (Runs.throughout_true es) hrun

end Rounds

section Exact

variable {ps : List Put}

theorem take_other {imei : Str} (hother : ∀ opus, opusOf e ≠ some (imei, opus)) :
    (s.take c e).segments.get imei = s.segments.get imei := by
  rw [State.take]
  cases hopus : opusOf e with
  | none =>
    dsimp only
    split <;> rfl
  | some x =>
    obtain ⟨imei', opus⟩ := x
    have himei : imei ≠ imei' := by
      rintro rfl
      exact hother opus hopus
    exact (hear_get (s := s.tick) imei' imei opus).trans (if_neg himei)

theorem Ripe.other {seg : DeviceSegment} (hkeyed : Keyed s) (hripe : Ripe c s e seg)
    (hidle : e ≠ .idle) (hgoes : e ≠ .interrupt) : ∃ opus, opusOf e = some (seg.imei, opus) := by
  cases e with
  | message key value =>
    obtain ⟨imei, opus, hopus, rfl, -⟩ := hripe
    exact ⟨opus, by rw [hopus, DeviceSegment.add, held_imei (s := s.tick) hkeyed]⟩
  | idle => exact absurd rfl hidle
  | error => exact hripe.elim
  | interrupt => exact absurd rfl hgoes

theorem Round.goes {s : State} (h : Round c s e ps s') (hrunning : s'.status = .running) :
    e ≠ .interrupt := fun he ↦ h.ends he hrunning

theorem pending_kept (hkeyed : Keyed s) (h : Round c s e ps s') (hrunning : s'.status = .running)
    (hidle : e ≠ .idle) {imei : Str} (hother : ∀ opus, opusOf e ≠ some (imei, opus)) :
    pending imei s' = pending imei s := by
  have htake := take_other (c := c) (s := s) hother
  cases hget : s.segments.get imei with
  | none =>
    rw [pending, pending, hget]
    cases hget' : s'.segments.get imei with
    | none => rfl
    | some seg =>
      by_cases hne : seg.packets = []
      · exact hne
      · obtain ⟨htaken, -⟩ := h.origin hget' hne
        rw [htake, hget] at htaken
        cases htaken
  | some seg =>
    rcases h.flushes.fate (htake.trans hget) with ⟨hget', -⟩ | ⟨⟨p, hp, rfl⟩, -⟩
    · rw [pending_of_get hget, pending_of_get (s := s') hget']
    · have hripe := (h.ripe hrunning p.seg).mp ⟨p, hp, rfl⟩
      obtain ⟨opus, hopus⟩ := hripe.other hkeyed hidle (h.goes hrunning)
      have himei : p.seg.imei = imei := hkeyed imei p.seg hget
      exact absurd (himei ▸ hopus) (hother opus)

theorem pending_ne_nil {imei : Str} (h : pending imei s ≠ []) :
    ∃ seg, s.segments.get imei = some seg ∧ seg.packets ≠ [] := by
  cases hget : s.segments.get imei with
  | none => simp [pending, hget] at h
  | some seg => exact ⟨seg, rfl, by rwa [pending_of_get hget] at h⟩

theorem full_of_negative (hneg : c.segmentSeconds < 0) (seg : DeviceSegment) :
    seg.full c = true := by
  have hsize : packetsPerSegment c ≤ 0 := by
    have hneg' : (-(c.segmentSeconds * 1000)).tdiv Protocol.frameMs = -packetsPerSegment c :=
      Int.neg_tdiv _ _
    have hpos : 0 ≤ (-(c.segmentSeconds * 1000)).tdiv Protocol.frameMs :=
      Int.tdiv_nonneg (by omega) (by decide)
    omega
  exact decide_eq_true (hsize.trans (Int.natCast_nonneg _))

theorem heard_not_quiet (hw : Intact c w.state) (hs : watch c w e = some w')
    (hrunning : w'.state.status = .running) {imei : Str} {opus : Bytes}
    {seg : DeviceSegment} {t : ℚ≥0}
    (hopus : opusOf e = some (imei, opus)) (hget : w'.state.segments.get imei = some seg)
    (hne : seg.packets ≠ []) (ht : w'.heardAt imei = some t) :
    ¬ (t : ℚ) + (c.segmentSeconds * 2 + 1) < c.clock w.state.ticks := by
  intro hquiet
  have ht' : t = c.clock w.state.ticks := by
    rw [(watch_cases hs).2, next_heardAt w _ hopus] at ht
    exact (Option.some.inj ht).symm
  have hneg : c.segmentSeconds < 0 := by
    by_contra hpos
    have hq : (0 : ℚ) ≤ c.segmentSeconds := by exact_mod_cast not_lt.mp hpos
    rw [ht'] at hquiet
    linarith
  rcases (watch_step hw hs).1.short hrunning imei seg hget with hnil | hfull
  · exact hne hnil
  · rw [full_of_negative hneg seg] at hfull
    cases hfull

/-- An idle tick leaves a pending segment alone if and only if it is not overdue. -/
theorem idle_pending_iff (hw : Intact c s) (hround : Round c s .idle ps s')
    (hrunning : s'.status = .running) {imei : Str} {seg : DeviceSegment}
    (hget : s.segments.get imei = some seg) (hne : seg.packets ≠ []) :
    pending imei s' ≠ [] ↔ ¬ seg.overdue c (tickedAt c s) := by
  have himei : seg.imei = imei := hw.keyed imei seg hget
  have htaken : (s.take c .idle).segments.get imei = some seg :=
    (take_other (e := .idle) (fun _ ↦ by simp [opusOf])).trans hget
  have hripe : Ripe c s .idle seg ↔ seg.overdue c (tickedAt c s) :=
    ⟨fun h ↦ h.2.2, fun h ↦ ⟨himei.symm ▸ hget, hne, h⟩⟩
  rw [← hripe, ← hround.ripe hrunning seg]
  rcases hround.flushes.fate htaken with ⟨hget', hkept⟩ | ⟨hput, n, hfresh⟩
  · rw [pending_of_get (s := s') hget']
    refine iff_of_true hne ?_
    rintro ⟨p, hp, rfl⟩
    exact hkept p hp himei
  · rw [pending_of_get (s := s') hfresh]
    exact iff_of_false (fun h ↦ h rfl) (not_not_intro hput)

/-- A device that has gone quiet keeps its packets where the iteration
neglects it, and nowhere else. -/
theorem prompt_iff (hw : Intact c w.state) (hs : watch c w e = some w')
    (hrunning : w'.state.status = .running) : Prompt c w w' ↔ ¬ Neglects c w e := by
  obtain ⟨-, ps, hround⟩ := watch_step hw hs
  have hheard {imei : Str} (hother : ∀ opus, opusOf e ≠ some (imei, opus)) :
      w'.heardAt imei = w.heardAt imei := by rw [(watch_cases hs).2, next_heardAt_other w _ hother]
  constructor
  · intro hprompt ⟨seg, t, hget, hne, ht, hquiet, hother, hlate⟩
    have hnone := hprompt seg.imei t ((hheard hother).trans ht) hquiet
    by_cases hidle : e = .idle
    · subst hidle
      exact (idle_pending_iff hw hround hrunning hget hne).mpr (hlate rfl) hnone
    · rw [pending_kept hw.keyed hround hrunning hidle hother, pending_of_get hget] at hnone
      exact hne hnone
  · intro hneglects imei t ht hquiet
    by_contra hpending
    obtain ⟨seg, hget, hne⟩ := pending_ne_nil hpending
    obtain ⟨-, ⟨opus, hopus, -⟩ | ⟨hget', hother⟩⟩ := hround.origin hget hne
    · exact heard_not_quiet hw hs hrunning hopus hget hne ht hquiet
    · obtain rfl : seg.imei = imei := hw.keyed imei seg hget'
      rw [hheard hother] at ht
      refine hneglects ⟨seg, t, hget', hne, ht, hquiet, hother, fun hidle ↦ ?_⟩
      subst hidle
      exact (idle_pending_iff hw hround hrunning hget' hne).mp hpending

theorem patient_iff (hw : Intact c w.state) (hs : watch c w e = some w')
    (hrunning : w'.state.status = .running) : Patient c w e w' ↔ ¬ Hurries c w e := by
  obtain ⟨-, ps, hround⟩ := watch_step hw hs
  have hputs : w'.state.puts.drop w.state.puts.length = ps := by rw [hround.puts, List.drop_left]
  rw [Patient, hputs]
  constructor
  · intro hpatient ⟨hidle, seg, t, hget, hne, hstart, ht, hlate⟩
    subst hidle
    obtain ⟨p, hp, rfl⟩ := (hround.ripe hrunning seg).mpr ⟨hget, hne, hstart⟩
    exact absurd hlate (not_le.mpr (hpatient rfl p hp t ht))
  · intro hhurries hidle p hp t ht
    subst hidle
    obtain ⟨hget, hne, hstart⟩ := (hround.ripe hrunning p.seg).mp ⟨p, hp, rfl⟩
    by_contra hlate
    exact hhurries ⟨rfl, p.seg, t, hget, hne, hstart, ht, not_lt.mp hlate⟩

/-- Idle close-out in every run: it is prompt and patient as long as no iteration neglects a device
that it does not hear and that has gone quiet, and no idle tick finds an old segment of a device
heard recently. Each such iteration breaks it at once. -/
theorem close_out_exact (hrun : Runs.run (watch c) .init es = some w) :
    (Runs.Throughout (watch c) (fun w e _ ↦ ¬ Neglects c w e ∧ ¬ Hurries c w e) .init es →
      Runs.Throughout (watch c) (fun w e w' ↦ w'.state.status = .running →
        Prompt c w w' ∧ Patient c w e w') .init es) ∧
    ∀ e w', watch c w e = some w' → w'.state.status = .running →
      (Prompt c w w' ↔ ¬ Neglects c w e) ∧ (Patient c w e w' ↔ ¬ Hurries c w e) := by
  refine ⟨?_, ?_⟩
  · intro hkeeps before e after m m' he hm hs hrunning
    obtain ⟨hneglects, hhurries⟩ := hkeeps before e after m m' he hm hs
    have hw := watch_intact hm
    exact ⟨(prompt_iff hw hs hrunning).mpr hneglects, (patient_iff hw hs hrunning).mpr hhurries⟩
  · intro e w' hs hrunning
    have hw := watch_intact hrun
    exact ⟨prompt_iff hw hs hrunning, patient_iff hw hs hrunning⟩

/-- Nothing happens before the third moment, and `n` seconds have gone by then. -/
def pausing (n : ℚ≥0) : Env := { everyMinute with clock := fun k ↦ if k < 2 then 0 else n }

theorem pausing_monotone (n : ℚ≥0) : Monotone (pausing n).clock := by
  intro i j hij
  simp only [pausing]
  split
  · exact zero_le
  · rw [if_neg (by omega)]

def spokenBy (id : String) (opus : Bytes) : Event :=
  .message (some (ascii id)) (Protocol.buildAudio opus 0 0 0)

def waiting : Watched where
  state :=
    { ticks := 2, segments := .set .empty (lit "A") ⟨lit "A", 0, [[7]], 1⟩, puts :=
      [], uploaded := 0,
      store := .empty, landed := [], status := .running }
  heardAt := Function.update (fun _ ↦ none) (lit "A") (some 0)

theorem waiting_startedAt {imei : Str} {seg : DeviceSegment}
    (hget : waiting.state.segments.get imei = some seg) : seg.startedAt = 0 := by
  rw [waiting, Dict.get_set] at hget
  split at hget
  · rw [← Option.some.inj hget]
  · cases hget

theorem waiting_heardAt {imei : Str} {h : ℚ≥0} (ht : waiting.heardAt imei = some h) : h = 0 := by
  by_cases himei : imei = lit "A"
  · rw [himei] at ht
    exact (Option.some.inj ht).symm
  · simp [waiting, himei] at ht

theorem close_out_exact_two :
    ∃ w', Runs.run (watch (pausing 125)) .init [spoken [7]] = some waiting ∧
      watch (pausing 125) waiting .idle = some w' ∧ Prompt (pausing 125) waiting w' ∧
      Patient (pausing 125) waiting .idle w' ∧ pending (lit "A") w'.state = [] ∧
      sent (lit "A") w'.state = [[7]] := by
  have hrun : Runs.run (watch (pausing 125)) .init [spoken [7]] = some waiting := rfl
  have hidle : (watch (pausing 125) waiting .idle).map (fun w ↦
      (decide (w.state.status = .running), pending (lit "A") w.state, sent (lit "A") w.state)) =
        some (true, [], [[7]]) := by decide +kernel
  obtain ⟨w', hs, hd⟩ := Option.map_eq_some_iff.mp hidle
  simp only [Prod.mk.injEq, decide_eq_true_eq] at hd
  obtain ⟨hrunning, hpending, hsent⟩ := hd
  have hticked : tickedAt (pausing 125) waiting.state = 125 := rfl
  obtain ⟨hprompt, hpatient⟩ := (close_out_exact hrun).2 _ w' hs hrunning
  refine ⟨w', hrun, hs, hprompt.mpr ?_, hpatient.mpr ?_, hpending, hsent⟩
  · rintro ⟨seg, h, hget, -, -, -, -, hlate⟩
    rw [DeviceSegment.overdue, waiting_startedAt hget] at hlate
    exact hlate rfl (by decide +kernel)
  · rintro ⟨-, seg, h, -, -, -, ht, hlate⟩
    rw [hticked, waiting_heardAt ht] at hlate
    norm_num [pausing, everyMinute] at hlate

/-- Device A stops in mid-segment, and 200 seconds later B is heard: what A sent stays pending. -/
theorem quiet_neglected : ∃ w', Monotone (pausing 200).clock ∧
    Runs.run (watch (pausing 200)) .init [spoken [7]] = some waiting ∧
    watch (pausing 200) waiting (spokenBy "B" [7]) = some w' ∧ w'.state.status = .running ∧
    ¬ Prompt (pausing 200) waiting w' := by
  have hheard : (watch (pausing 200) waiting (spokenBy "B" [7])).map (fun w ↦
      (decide (w.state.status = .running), w.heardAt (lit "A"), pending (lit "A") w.state)) =
        some (true, some 0, [[7]]) := by decide +kernel
  obtain ⟨w', hs, hd⟩ := Option.map_eq_some_iff.mp hheard
  simp only [Prod.mk.injEq, decide_eq_true_eq] at hd
  obtain ⟨hrunning, hlatest, hpending⟩ := hd
  refine ⟨w', pausing_monotone 200, rfl, hs, hrunning, fun hprompt ↦ ?_⟩
  have hnone := hprompt (lit "A") 0 hlatest (by decide +kernel)
  rw [hpending] at hnone
  cases hnone

/-- The new segment is stamped 5 seconds after `poll` returned its packet, and the idle tick 122
seconds after it comes too early for the stamp. -/
example : (Runs.run (watch { everyMinute with clock := fun k ↦ [0, 5].getD k 122 }) .init
    [spoken [7], .idle]).map (fun w ↦ (w.heardAt (lit "A"), pending (lit "A") w.state)) =
      some (some 0, [[7]]) := by
  decide +kernel

end Exact

end OpusFleet.Server.Segmenter
