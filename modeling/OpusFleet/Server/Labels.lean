import Mathlib.Algebra.Order.Group.Unbundled.Abs
import Mathlib.Tactic.Linarith
import OpusFleet.Server.Quiet

namespace OpusFleet.Server.Segmenter

open Python Library

/-- The segmenter together with the time at which the first packet of each device's latest segment
was consumed, and each call of `put_segment` with that time. -/
structure Timed where
  state : State
  firstAt : Str → ℚ≥0
  labels : List (Put × ℚ≥0)

variable (c : Env)

def Timed.heard (w : Timed) (e : Event) : Str → ℚ≥0 :=
  match opusOf e with
  | some (imei, _) =>
    if pending imei w.state = [] then Function.update w.firstAt imei (c.clock w.state.ticks)
    else w.firstAt
  | none => w.firstAt

def Timed.next (w : Timed) (e : Event) (s : State) : Timed where
  state := s
  firstAt := w.heard c e
  labels := w.labels ++
    (s.puts.drop w.state.puts.length).map fun p ↦ (p, w.heard c e p.seg.imei)

def time (w : Timed) (e : Event) : Option Timed := (step c w.state e).map (w.next c e)

def Timed.init : Timed := ⟨.init, fun _ ↦ 0, []⟩

/-- Two clock readings less than a second apart. -/
def Near (a b : ℚ≥0) : Prop := |(a : ℚ) - (b : ℚ)| < 1

/-- The iteration takes less than a second. -/
def Brisk (w : Timed) (_ : Event) (w' : Timed) : Prop :=
  ∀ n, w.state.ticks ≤ n → n < w'.state.ticks → (c.clock n : ℚ) < c.clock w.state.ticks + 1

/-- The event brings a packet of a device whose empty segment is stamped a second ago or more. -/
def Stale (s : State) (e : Event) : Prop :=
  ∃ imei opus seg, opusOf e = some (imei, opus) ∧ s.segments.get imei = some seg ∧
    seg.packets = [] ∧
    (seg.startedAt : ℚ) + 1 ≤ c.clock s.ticks

/-- Each segment, uploaded or pending, starts within a second of its first packet. -/
structure Timely (w : Timed) : Prop where
  labels : ∀ p ∈ w.labels, Near p.1.seg.startedAt p.2
  pending : ∀ imei seg, w.state.segments.get imei = some seg → seg.packets ≠ [] →
    Near seg.startedAt (w.firstAt imei)

variable {c} {w w' : Timed} {s s' : State} {es : List Event} {e : Event} {ps : List Put}

theorem time_cases (h : time c w e = some w') :
    step c w.state e = some w'.state ∧ w' = w.next c e w'.state := by
  obtain ⟨s, hs, rfl⟩ := Option.map_eq_some_iff.mp h
  exact ⟨hs, rfl⟩

theorem Flushes.forall_iff (h : Flushes c s ps s') (hkeyed : Keyed s)
    (Q : Str → DeviceSegment → Prop) :
    ((∀ p ∈ ps, Q p.seg.imei p.seg) ∧
      ∀ imei seg, s'.segments.get imei = some seg → seg.packets ≠ [] → Q imei seg) ↔
    ∀ imei seg, s.segments.get imei = some seg → seg.packets ≠ [] → Q imei seg := by
  constructor
  · rintro ⟨hputs, hleft⟩ imei seg hget hne
    rcases h.fate hget with ⟨hget', -⟩ | ⟨⟨p, hp, rfl⟩, -⟩
    · exact hleft imei seg hget' hne
    · rw [← hkeyed imei p.seg hget]
      exact hputs p hp
  · intro hall
    refine ⟨fun p hp ↦ hall _ _ (h.mem p hp) (h.built p hp).1, fun imei seg hget hne ↦ ?_⟩
    rcases h.get hget with hget' | ⟨n, rfl⟩
    · exact hall imei seg hget' hne
    · exact absurd rfl hne

theorem near_iff {a b : ℚ≥0} (h : a ≤ b) : Near a b ↔ ¬(a : ℚ) + 1 ≤ b := by
  have hle : (a : ℚ) ≤ b := by exact_mod_cast h
  rw [Near, abs_lt]
  constructor
  · rintro ⟨hlow, _⟩ hlate
    linarith
  · intro hlate
    exact ⟨by linarith, by linarith⟩

theorem near_comm {a b : ℚ≥0} : Near a b ↔ Near b a := by rw [Near, Near, abs_sub_comm]

section Take

variable {imei : Str} {opus : Bytes}

theorem heard_other (w : Timed) (hother : ∀ opus, opusOf e ≠ some (imei, opus)) :
    w.heard c e imei = w.firstAt imei := by
  rw [Timed.heard]
  cases hopus : opusOf e with
  | none => rfl
  | some x =>
    obtain ⟨imei', opus⟩ := x
    have hne : imei ≠ imei' := by
      rintro rfl
      exact hother opus hopus
    dsimp only
    split
    · exact Function.update_of_ne hne _ _
    · rfl

theorem heard_first (w : Timed) (hopus : opusOf e = some (imei, opus))
    (hnil : pending imei w.state = []) :
    w.heard c e imei = c.clock w.state.ticks := by
  rw [Timed.heard, hopus]
  dsimp only
  rw [if_pos hnil]
  exact Function.update_self _ _ _

theorem heard_open (w : Timed) (hopus : opusOf e = some (imei, opus))
    (hne : pending imei w.state ≠ []) :
    w.heard c e imei = w.firstAt imei := by
  rw [Timed.heard, hopus]
  dsimp only
  rw [if_neg hne]

theorem take_self (hopus : opusOf e = some (imei, opus)) :
    (s.take c e).segments.get imei = some ((s.tick.held c imei).add opus) := by
  rw [State.take, hopus, hear_get, if_pos rfl]

theorem stale_iff {seg : DeviceSegment} (hopus : opusOf e = some (imei, opus))
    (hget : s.segments.get imei = some seg) :
    Stale c s e ↔ seg.packets = [] ∧ (seg.startedAt : ℚ) + 1 ≤ c.clock s.ticks := by
  constructor
  · rintro ⟨imei', opus', seg', hopus', hget', hnil, hlate⟩
    obtain ⟨rfl, -⟩ : imei = imei' ∧ opus = opus' := by simpa using hopus.symm.trans hopus'
    obtain rfl := Option.some.inj (hget.symm.trans hget')
    exact ⟨hnil, hlate⟩
  · rintro ⟨hnil, hlate⟩
    exact ⟨imei, opus, seg, hopus, hget, hnil, hlate⟩

theorem not_stale_new (hopus : opusOf e = some (imei, opus)) (hnone : s.segments.get imei = none) :
    ¬Stale c s e := by
  rintro ⟨imei', opus', seg, hopus', hget, _⟩
  obtain ⟨rfl, -⟩ : imei = imei' ∧ opus = opus' := by simpa using hopus.symm.trans hopus'
  rw [hnone] at hget
  cases hget

variable (hclock : Monotone c.clock) (hpast : Past c w.state)
  (hbrisk : ∀ imei opus, opusOf e = some (imei, opus) → w.state.segments.get imei = none →
    (c.clock (w.state.ticks + 1) : ℚ) < c.clock w.state.ticks + 1)

include hclock hpast hbrisk

theorem join_timely_iff (hopus : opusOf e = some (imei, opus)) :
    Near ((w.state.tick.held c imei).add opus).startedAt (w.heard c e imei) ↔
      (∀ seg, w.state.segments.get imei = some seg → seg.packets ≠ [] →
        Near seg.startedAt (w.firstAt imei)) ∧ ¬Stale c w.state e := by
  have hstart : ((w.state.tick.held c imei).add opus).startedAt =
      (w.state.tick.held c imei).startedAt := rfl
  rw [hstart]
  rcases held_cases (c := c) w.state.tick imei with hget | ⟨hnone, hheld⟩
  · change w.state.segments.get imei = _ at hget
    have hpending := pending_of_get hget
    rw [stale_iff hopus hget]
    by_cases hnil : (w.state.tick.held c imei).packets = []
    · rw [heard_first w hopus (hpending.trans hnil), near_iff (hpast imei _ hget)]
      constructor
      · intro hnear
        refine ⟨fun seg hget' hne ↦ ?_, fun hlate ↦ hnear hlate.2⟩
        obtain rfl := Option.some.inj (hget.symm.trans hget')
        exact absurd hnil hne
      · rintro ⟨_, hfresh⟩ hlate
        exact hfresh ⟨hnil, hlate⟩
    · rw [heard_open w hopus (hpending ▸ hnil)]
      constructor
      · intro hnear
        refine ⟨fun seg hget' _ ↦ ?_, fun hstale ↦ hnil hstale.1⟩
        obtain rfl := Option.some.inj (hget.symm.trans hget')
        exact hnear
      · rintro ⟨hnear, _⟩
        exact hnear _ hget hnil
  · change w.state.segments.get imei = none at hnone
    have hnil : pending imei w.state = [] := by
      rw [pending, hnone]
      rfl
    have hle : c.clock w.state.ticks ≤ c.clock (w.state.ticks + 1) := hclock (Nat.le_succ _)
    rw [heard_first w hopus hnil, hheld, near_comm]
    refine iff_of_true ((near_iff hle).mpr (not_le.mpr (hbrisk imei opus hopus hnone)))
      ⟨?_, not_stale_new hopus hnone⟩
    intro seg hget
    rw [hnone] at hget
    cases hget

/-- The event's packet keeps the segments timely exactly if it does not join a stale one. -/
theorem take_timely_iff :
    (∀ imei seg, (w.state.take c e).segments.get imei = some seg → seg.packets ≠ [] →
      Near seg.startedAt (w.heard c e imei)) ↔
    (∀ imei seg, w.state.segments.get imei = some seg → seg.packets ≠ [] →
      Near seg.startedAt (w.firstAt imei)) ∧ ¬Stale c w.state e := by
  have hother {imei : Str} (h : ∀ opus, opusOf e ≠ some (imei, opus)) :
      (w.state.take c e).segments.get imei = w.state.segments.get imei ∧
        w.heard c e imei = w.firstAt imei := ⟨take_other h, heard_other w h⟩
  cases hopus : opusOf e with
  | none =>
    have hnone (imei : Str) (opus : Bytes) : opusOf e ≠ some (imei, opus) := by simp [hopus]
    have hfresh : ¬Stale c w.state e := fun ⟨_, _, _, h, _⟩ ↦ hnone _ _ h
    simp only [(hother (hnone _)).1, (hother (hnone _)).2, hfresh, not_false_eq_true, and_true]
  | some x =>
    obtain ⟨imei, opus⟩ := x
    have hne : ((w.state.tick.held c imei).add opus).packets ≠ [] := by simp [DeviceSegment.add]
    have hjoin := join_timely_iff hclock hpast hbrisk hopus
    have hrest {imei' : Str} (h : imei' ≠ imei) (opus' : Bytes) : opusOf e ≠
        some (imei', opus') := by
      simp [hopus, Ne.symm h]
    constructor
    · intro htake
      obtain ⟨hsame, hfresh⟩ := hjoin.mp (htake imei _ (take_self hopus) hne)
      refine ⟨fun imei' seg hget hseg ↦ ?_, hfresh⟩
      by_cases himei : imei' = imei
      · subst himei
        exact hsame seg hget hseg
      · obtain ⟨htaken, hheard⟩ := hother (hrest himei)
        rw [← hheard]
        exact htake imei' seg (htaken.trans hget) hseg
    · rintro ⟨hbefore, hfresh⟩ imei' seg hget hseg
      by_cases himei : imei' = imei
      · subst himei
        rw [take_self hopus] at hget
        obtain rfl := Option.some.inj hget
        exact hjoin.mpr ⟨hbefore imei', hfresh⟩
      · obtain ⟨htaken, hheard⟩ := hother (hrest himei)
        rw [hheard]
        exact hbefore imei' seg (htaken.symm.trans hget) hseg

end Take

section Runs

theorem Flushes.ticks_le (h : Flushes c s ps s') : s.ticks ≤ s'.ticks := by
  induction h with
  | nil s => exact le_rfl
  | @cons s s' p ps _ _ _ ih =>
    have hupload : s.ticks ≤ (s.upload c p).ticks := by
      rw [State.upload]
      split
      · exact Nat.le_succ _
      · exact le_rfl
    exact (hupload.trans (Nat.le_succ _)).trans ih

theorem take_ticks_new {imei : Str} {opus : Bytes} (hopus : opusOf e = some (imei, opus))
    (hnone : s.segments.get imei = none) : (s.take c e).ticks = s.ticks + 2 := by
  have hnone' : s.tick.segments.get imei = none := hnone
  rw [State.take, hopus]
  simp only [State.hear, State.segment, hnone']
  rfl

theorem timely_next_iff {f : Str → ℚ≥0}
    (hlabels : w'.labels = w.labels ++ ps.map fun p ↦ (p, f p.seg.imei))
    (hfirst : w'.firstAt = f) : Timely w' ↔ (∀ p ∈ w.labels, Near p.1.seg.startedAt p.2) ∧
      (∀ p ∈ ps, Near p.seg.startedAt (f p.seg.imei)) ∧
      ∀ imei seg, w'.state.segments.get imei = some seg → seg.packets ≠ [] →
        Near seg.startedAt (f imei) := by
  rw [← List.forall_mem_map (l := ps) (f := fun p ↦ (p, f p.seg.imei))
    (P := fun p ↦ Near p.1.seg.startedAt p.2), ← and_assoc, ← List.forall_mem_append,
      ← hlabels, ← hfirst]
  exact ⟨fun h ↦ ⟨h.labels, h.pending⟩, fun h ↦ ⟨h.1, h.2⟩⟩

theorem time_timely_iff (hclock : Monotone c.clock) (hintact : Intact c w.state)
    (hpast : Past c w.state) (hs : time c w e = some w') (hbrisk : Brisk c w e w') :
    Intact c w'.state ∧ Past c w'.state ∧
      (w.labels.map Prod.fst = w.state.puts → w'.labels.map Prod.fst = w'.state.puts) ∧
      (Timely w' ↔ Timely w ∧ ¬Stale c w.state e) := by
  obtain ⟨hstep, hnext⟩ := time_cases hs
  obtain ⟨ps, hround⟩ := step_round hintact.keyed hstep
  have hdrop : w'.state.puts.drop w.state.puts.length = ps := by rw [hround.puts, List.drop_left]
  have hlabels : w'.labels = w.labels ++ ps.map fun p ↦ (p, w.heard c e p.seg.imei) := by
    rw [hnext, Timed.next, hdrop]
  have hfirst : w'.firstAt = w.heard c e := by rw [hnext, Timed.next]
  have hnew (imei : Str) (opus : Bytes) (hopus : opusOf e = some (imei, opus))
      (hnone : w.state.segments.get imei = none) :
      (c.clock (w.state.ticks + 1) : ℚ) < c.clock w.state.ticks + 1 := by
    have hticks := hround.flushes.ticks_le
    rw [take_ticks_new hopus hnone] at hticks
    exact hbrisk _ (Nat.le_succ _) hticks
  have htake := take_timely_iff hclock hpast hnew
  rw [← hround.flushes.forall_iff (take_keyed hintact.keyed e)
    fun imei seg ↦ Near seg.startedAt (w.heard c e imei)] at htake
  have hpast' := hround.flushes.past hclock (past_take hclock hpast e)
  refine ⟨hround.intact hintact, hpast', fun hputs ↦ ?_, ?_⟩
  · rw [hlabels, List.map_append, hputs, hround.puts, List.map_map]
    simp [Function.comp_def]
  · refine ((timely_next_iff hlabels hfirst).trans (and_congr_right' htake)).trans ?_
    constructor
    · rintro ⟨hbefore, hpending, hfresh⟩
      exact ⟨⟨hbefore, hpending⟩, hfresh⟩
    · rintro ⟨hw, hfresh⟩
      exact ⟨hw.labels, hw.pending, hfresh⟩

theorem run_timely_iff (hclock : Monotone c.clock) (hrun : Runs.run (time c) .init es = some w)
    (hbrisk : Runs.Throughout (time c) (Brisk c) .init es) :
    Intact c w.state ∧ Past c w.state ∧ w.labels.map Prod.fst = w.state.puts ∧
      (Timely w ↔ Runs.Throughout (time c) (fun w e _ ↦ ¬Stale c w.state e) .init es) := by
  induction es using List.reverseRecOn generalizing w with
  | nil =>
    obtain rfl : Timed.init = w := by simpa using hrun
    refine ⟨intact_init, by simp [Past, Timed.init, State.init], rfl,
      iff_of_true ?_ Runs.throughout_nil⟩
    exact ⟨by simp [Timed.init], by simp [Timed.init, State.init]⟩
  | append_singleton es e ih =>
    obtain ⟨m, hm, hs⟩ := (Runs.run_concat _).mp hrun
    obtain ⟨hintact, hpast, hputs, hiff⟩ := ih hm hbrisk.init
    obtain ⟨hintact', hpast', hputs', hstep⟩ :=
      time_timely_iff hclock hintact hpast hs (hbrisk es e [] m w rfl hm hs)
    refine ⟨hintact', hpast', hputs' hputs, hstep.trans ?_⟩
    rw [hiff, Runs.throughout_concat hm hs]

/-- With a clock that does not go back and iterations of less than a second, every segment
handed to `put_segment` is stamped within a second of its first packet as long as no
packet joins a stale empty segment; and in a run that leaves nothing pending no packet
does so if all stamps are right. -/
theorem labels_timely_iff (hclock : Monotone c.clock) (hrun : Runs.run (time c) .init es = some w)
    (hbrisk : Runs.Throughout (time c) (Brisk c) .init es) :
    w.labels.map Prod.fst = w.state.puts ∧
      (Runs.Throughout (time c) (fun w e _ ↦ ¬Stale c w.state e) .init es →
        ∀ p ∈ w.labels, Near p.1.seg.startedAt p.2) ∧
      ((∀ imei, pending imei w.state = []) → (∀ p ∈ w.labels, Near p.1.seg.startedAt p.2) →
        Runs.Throughout (time c) (fun w e _ ↦ ¬Stale c w.state e) .init es) := by
  obtain ⟨-, -, hputs, hiff⟩ := run_timely_iff hclock hrun hbrisk
  refine ⟨hputs, fun hfresh ↦ (hiff.mpr hfresh).labels, fun hnone hlabels ↦ hiff.mp ⟨hlabels, ?_⟩⟩
  intro imei seg hget hne
  exact absurd ((pending_of_get hget).symm.trans (hnone imei)) hne

theorem run_ticks (hrun : Runs.run (time c) .init es = some w) (t : ℕ)
    (h : (Runs.run (time c) .init es).map (·.state.ticks) = some t) : w.state.ticks = t := by
  rw [hrun] at h
  exact Option.some.inj h

def quarters : Env := { everyMinute with segmentSeconds := 0, clock := fun n ↦ n / 4 }

def words : List Event := [spoken [7], spoken [8], .interrupt]

theorem quarters_monotone : Monotone quarters.clock := by
  intro m n h
  exact div_le_div_of_nonneg_right (Nat.cast_le.mpr h) zero_le

theorem quarters_brisk (h : w'.state.ticks ≤ w.state.ticks + 4) : Brisk quarters w e w' := by
  intro n _ hlt
  have hn : ((n : ℕ) : ℚ) ≤ w.state.ticks + 3 := by
    exact_mod_cast (show n ≤ w.state.ticks + 3 by omega)
  simp only [quarters, NNRat.cast_div, NNRat.cast_natCast, NNRat.cast_ofNat]
  linarith

theorem labels_timely_iff_two :
    ∃ w, Runs.run (time quarters) .init words = some w ∧
      w.labels.map (fun p ↦ (p.1.seg.startedAt, p.2)) = [(1 / 4, 0), (3 / 4, 1)] ∧
      w.labels.map Prod.fst = w.state.puts ∧ ∀ p ∈ w.labels, Near p.1.seg.startedAt p.2 := by
  have hlabels : (Runs.run (time quarters) .init words).map
      (fun w ↦ w.labels.map fun p ↦ (p.1.seg.startedAt, p.2)) = some [(1 / 4, 0), (3 / 4, 1)] := by
    decide +kernel
  obtain ⟨w, hrun, hw⟩ := Option.map_eq_some_iff.mp hlabels
  have hbrisk : Runs.Throughout (time quarters) (Brisk quarters) .init words := by
    apply Runs.throughout_cons
    · intro m hm
      exact quarters_brisk (run_ticks (Runs.run_snoc (Runs.run_nil _ _) hm) 4
        (by decide +kernel)).le
    intro m₁ h₁
    have hrun₁ := Runs.run_snoc (Runs.run_nil (time quarters) .init) h₁
    have ht₁ := run_ticks hrun₁ 4 (by decide +kernel)
    apply Runs.throughout_cons
    · intro m hm
      have ht := run_ticks (Runs.run_snoc hrun₁ hm) 7 (by decide +kernel)
      exact quarters_brisk (by rw [ht, ht₁]; decide)
    intro m₂ h₂
    have hrun₂ := Runs.run_snoc hrun₁ h₂
    have ht₂ := run_ticks hrun₂ 7 (by decide +kernel)
    refine Runs.throughout_cons (fun m hm ↦ ?_) fun _ _ ↦ Runs.throughout_nil
    have ht := run_ticks (Runs.run_snoc hrun₂ hm) 8 (by decide +kernel)
    exact quarters_brisk (by rw [ht, ht₂]; decide)
  obtain ⟨hputs, htimely, -⟩ := labels_timely_iff quarters_monotone hrun hbrisk
  refine ⟨w, hrun, hw, hputs, htimely ?_⟩
  apply Runs.throughout_cons
  · rintro m - ⟨_, _, _, -, hget, -⟩
    cases hget
  intro m₁ h₁
  apply Runs.throughout_cons
  · rintro m - ⟨imei, opus, seg, hopus, hget, -, hstale⟩
    have hstart : (time quarters .init (spoken [7])).map (fun w ↦
      (w.state.ticks, (w.state.segments.get (lit "A")).map (·.startedAt))) =
      some (4, some (3 / 4)) := by
      decide +kernel
    rw [h₁] at hstart
    obtain ⟨ht, hsome⟩ := Prod.mk.inj (Option.some.inj hstart)
    obtain rfl : lit "A" = imei :=
      congrArg Prod.fst
        (Option.some.inj ((opusOf_spoken (show [8] ≠ [] by decide)).symm.trans hopus))
    rw [hget] at hsome
    have hreset : seg.startedAt = 3 / 4 := Option.some.inj hsome
    rw [hreset, ht] at hstale
    norm_num [quarters] at hstale
  intro m₂ _
  refine Runs.throughout_cons (fun m _ ↦ ?_) fun _ _ ↦ Runs.throughout_nil
  rintro ⟨_, _, _, hopus, -⟩
  cases hopus

/-- The clock shows 0 in the first iteration, 200 in the second and 300 from then on. -/
def gaps : Env := { everyMinute with clock :=
  fun n ↦ if n < 2 then 0 else if n < 6 then 200 else 300 }

def resumed : List Event := [spoken [7], .idle, spoken [8], .interrupt]

theorem gaps_monotone : Monotone gaps.clock := by
  intro i j hij
  simp only [gaps]
  split_ifs
  all_goals first | omega | norm_num

theorem gaps_brisk : Runs.Throughout (time gaps) (Brisk gaps) .init resumed := by
  have hsame {m m' : Timed} {e : Event} (h : ∀ n, m.state.ticks ≤ n → n < m'.state.ticks →
      gaps.clock n = gaps.clock m.state.ticks) : Brisk gaps m e m' := by
    intro n hle hlt
    rw [h n hle hlt]
    exact lt_add_one _
  have hmiddle {n : ℕ} (hle : 2 ≤ n) (hlt : n < 6) : gaps.clock n = 200 :=
    (if_neg (not_lt.mpr hle)).trans (if_pos hlt)
  have hlate {n : ℕ} (h : 6 ≤ n) : gaps.clock n = 300 :=
    (if_neg (by omega)).trans (if_neg (not_lt.mpr h))
  apply Runs.throughout_cons
  · intro m hm
    have ht := run_ticks (Runs.run_snoc (Runs.run_nil _ _) hm) 2 (by decide +kernel)
    apply hsame
    intro n _ hlt
    rw [ht] at hlt
    exact if_pos hlt
  intro m₁ h₁
  have hrun₁ := Runs.run_snoc (Runs.run_nil (time gaps) .init) h₁
  have ht₁ := run_ticks hrun₁ 2 (by decide +kernel)
  apply Runs.throughout_cons
  · intro m hm
    have ht := run_ticks (Runs.run_snoc hrun₁ hm) 6 (by decide +kernel)
    apply hsame
    intro n hle hlt
    rw [ht₁] at hle ⊢
    rw [ht] at hlt
    rw [hmiddle hle hlt, hmiddle le_rfl (by decide)]
  intro m₂ h₂
  have hrun₂ := Runs.run_snoc hrun₁ h₂
  have ht₂ := run_ticks hrun₂ 6 (by decide +kernel)
  have hrest {m m' : Timed} {e : Event} (ht : 6 ≤ m.state.ticks) : Brisk gaps m e m' :=
    hsame fun n hle _ ↦ by rw [hlate ht, hlate (ht.trans hle)]
  apply Runs.throughout_cons fun m _ ↦ hrest ht₂.ge
  intro m₃ h₃
  have ht₃ := run_ticks (Runs.run_snoc hrun₂ h₃) 7 (by decide +kernel)
  refine Runs.throughout_cons (fun m _ ↦ hrest ?_) fun _ _ ↦ Runs.throughout_nil
  rw [ht₃]
  decide

/-- The idle tick stamps the device's segment 100 seconds before the next packet joins it. -/
theorem label_early : Monotone gaps.clock ∧ Runs.Throughout (time gaps) (Brisk gaps) .init resumed ∧
    ∃ w, Runs.run (time gaps) .init resumed = some w ∧
      ∃ p ∈ w.labels, ¬Near p.1.seg.startedAt p.2 := by
  have hlabels : (Runs.run (time gaps) .init resumed).map
      (fun w ↦ w.labels.map fun p ↦ (p.1.seg.startedAt, p.2)) = some [(0, 0), (200, 300)] := by
    decide +kernel
  obtain ⟨w, hrun, hw⟩ := Option.map_eq_some_iff.mp hlabels
  refine ⟨gaps_monotone, gaps_brisk, w, hrun, ?_⟩
  obtain ⟨p, hp, heq⟩ : ∃ p ∈ w.labels, (p.1.seg.startedAt, p.2) = (200, 300) :=
    List.mem_map.mp (hw ▸ by simp)
  obtain ⟨hstart, hfirst⟩ := Prod.mk.inj heq
  refine ⟨p, hp, ?_⟩
  rw [hstart, hfirst, near_iff (by norm_num)]
  norm_num

end Runs

end OpusFleet.Server.Segmenter
