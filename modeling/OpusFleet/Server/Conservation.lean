import Mathlib.Algebra.Order.Ring.Int
import OpusFleet.Server.Muxing
import OpusFleet.Server.Rotation

namespace OpusFleet.Server.Segmenter

open Python Library

variable {c : Env} {s s' : State}

section Refinement

/-- The packets of a device that no upload has taken yet. -/
def pending (imei : Str) (s : State) : List Bytes := ((s.segments.get imei).map (·.packets)).getD []

/-- The packets in the segments of a device handed to `put_segment`. -/
def sent (imei : Str) (s : State) : List Bytes :=
  s.puts.flatMap fun p ↦ if p.seg.imei = imei then p.seg.packets else []

def heard (imei : Str) (es : List Event) : List Bytes :=
  es.flatMap fun e ↦ match opusOf e with
    | some (imei', opus) => if imei' = imei then [opus] else []
    | none => []

/-- The segmenter as a machine that closes batches. -/
def abs (s : State) : Batches.Buffers Str Bytes :=
  ⟨fun imei ↦ pending imei s, s.puts.map fun p ↦ (p.seg.imei, p.seg.packets)⟩

def adds (e : Event) : List (Batches.Act Str Bytes) :=
  match opusOf e with
  | some (imei, opus) => [.add imei opus]
  | none => []

def closes (ps : List Put) : List (Batches.Act Str Bytes) := ps.map fun p ↦ .close p.seg.imei

theorem heard_append (imei : Str) (es es' : List Event) :
    heard imei (es ++ es') = heard imei es ++ heard imei es' := List.flatMap_append

theorem heard_one (imei : Str) (e : Event) : heard imei [e] = Batches.added imei (adds e) := by
  simp only [heard, adds, List.flatMap_cons, List.flatMap_nil, List.append_nil]
  split <;> simp [Batches.added]

theorem added_closes (imei : Str) (ps : List Put) : Batches.added imei (closes ps) = [] := by
  simp [Batches.added, closes, List.flatMap_map]

theorem out_abs (imei : Str) (s : State) : Batches.out imei (abs s).closed = sent imei s := by
  simp only [Batches.out, abs, sent, List.flatMap_map]

theorem abs_reset (p : Put) (hget : s.segments.get p.seg.imei = some p.seg) :
    abs ((s.upload c p).reset c p.seg.imei) = Batches.act (abs s) (.close p.seg.imei) := by
  refine Batches.Buffers.ext (funext fun imei ↦ ?_) ?_
  · by_cases h : imei = p.seg.imei
    · subst h
      simp [abs, Batches.act, pending, reset_get, DeviceSegment.fresh]
    · simp [abs, Batches.act, pending, reset_get, h]
  · simp [abs, Batches.act, pending, hget]

theorem Flushes.abs {ps : List Put} (h : Flushes c s ps s') :
    abs s' = Batches.run (abs s) (closes ps) := by
  induction h with
  | nil s => rfl
  | cons hget _ _ ih =>
    rw [ih, abs_reset _ hget]
    rfl

theorem held_packets (imei : Str) : (s.held c imei).packets = pending imei s := by
  rw [pending]
  rcases held_cases (c := c) s imei with hget | ⟨hget, hheld⟩
  · rw [hget]
    rfl
  · rw [hget, hheld]
    rfl

theorem abs_hear (imei : Str) (opus : Bytes) :
    abs (s.hear c imei opus) = Batches.act (abs s) (.add imei opus) := by
  refine Batches.Buffers.ext (funext fun imei' ↦ ?_) ?_
  · by_cases h : imei' = imei
    · subst h
      simp [abs, Batches.act, pending, hear_get, DeviceSegment.add, held_packets]
    · simp [abs, Batches.act, pending, hear_get, h]
  · simp [abs, Batches.act, hear_puts]

theorem abs_take (e : Event) : abs (s.take c e) = Batches.run (abs s) (adds e) := by
  rw [State.take, adds]
  cases opusOf e with
  | some x => exact abs_hear _ _
  | none => by_cases h : e = .idle <;> simp only [h, if_true, if_false] <;> rfl

theorem Round.abs {e : Event} {ps : List Put} (h : Round c s e ps s') :
    abs s' = Batches.run (abs s) (adds e ++ closes ps) := by
  rw [Batches.run_append, ← abs_take, ← h.flushes.abs]
  rfl

end Refinement

section Runs

structure Intact (c : Env) (s : State) : Prop where
  keyed : Keyed s
  built : ∀ p ∈ s.puts, p.Built
  short : s.status = .running → ∀ imei seg, s.segments.get imei = some seg →
    seg.packets = [] ∨ seg.full c = false

theorem intact_init : Intact c .init :=
  ⟨by simp [Keyed, State.init], by simp [State.init], by simp [State.init]⟩

theorem Round.puts {e : Event} {ps : List Put} (h : Round c s e ps s') :
    s'.puts = s.puts ++ ps := by
  rw [← take_puts (c := c) (s := s) e, ← h.flushes.puts]

theorem Round.intact {e : Event} {ps : List Put} (h : Round c s e ps s') (hs : Intact c s) :
    Intact c s' := by
  have hflushes := h.flushes
  refine ⟨hflushes.keyed (take_keyed hs.keyed e), ?_, fun hrunning imei seg hget ↦ ?_⟩
  · rw [h.puts]
    exact List.forall_mem_append.mpr ⟨hs.built, hflushes.built⟩
  · rcases hflushes.get hget with htaken | ⟨n, rfl⟩
    · rcases take_get htaken with hget' | ⟨opus, hopus, rfl⟩
      · exact hs.short h.running imei seg hget'
      · cases hfull : ((s.tick.held c imei).add opus).full c with
        | false => exact .inr rfl
        | true =>
          obtain ⟨key, value, rfl⟩ := opusOf_message hopus
          have hclosed : Ripe c s (.message key value) ((s.tick.held c imei).add opus) :=
            ⟨imei, opus, hopus, rfl, hfull⟩
          obtain ⟨p, hp, hseg⟩ := (h.ripe hrunning _).mpr hclosed
          rcases hflushes.fate htaken with ⟨-, hother⟩ | ⟨-, n, hfresh⟩
          · refine absurd ?_ (hother p hp)
            rw [hseg]
            exact held_imei (s := s.tick) hs.keyed imei
          · rw [Option.some.inj (hget.symm.trans hfresh)]
            exact .inl rfl
    · exact .inl rfl

/-- The segmenter does what a machine does that adds the packets heard
and closes the batches uploaded. -/
theorem run_refines {es : List Event} (hrun : Runs.run (step c) .init es = some s) :
    Intact c s ∧ ∃ acts, abs s = Batches.run ⟨fun _ ↦ [], []⟩ acts ∧
      ∀ imei, Batches.added imei acts = heard imei es := by
  refine Runs.run_induction (P := fun _ _ _ ↦ True)
    (I := fun es s ↦ Intact c s ∧ ∃ acts, abs s = Batches.run ⟨fun _ ↦ [], []⟩ acts ∧
      ∀ imei, Batches.added imei acts = heard imei es) ?_ ?_ (Runs.throughout_true es) hrun
  · exact ⟨intact_init, [], rfl, fun _ ↦ rfl⟩
  · rintro es m e m' - ⟨hm, acts, habs, hadded⟩ - hstep
    obtain ⟨ps, hround⟩ := step_round hm.keyed hstep
    refine ⟨hround.intact hm, acts ++ (adds e ++ closes ps), ?_, fun imei ↦ ?_⟩
    · rw [hround.abs, habs, ← Batches.run_append]
    · rw [Batches.added_append, Batches.added_append, hadded, added_closes, List.append_nil,
        heard_append, heard_one]

theorem run_conserves {es : List Event} (hrun : Runs.run (step c) .init es = some s) (imei : Str) :
    sent imei s ++ pending imei s = heard imei es := by
  obtain ⟨-, acts, habs, hadded⟩ := run_refines hrun
  have h := Batches.run_conserves ⟨fun _ ↦ [], []⟩ acts imei
  have hheld : (abs s).held imei = pending imei s := rfl
  rw [← habs, out_abs, hadded, hheld] at h
  simpa [Batches.out] using h

end Runs

section Sizes

theorem pending_of_get {imei : Str} {seg : DeviceSegment} (hget : s.segments.get imei = some seg) :
    pending imei s = seg.packets := by
  rw [pending, hget]
  rfl

theorem Intact.pending_lt (hs : Intact c s) (hrunning : s.status = .running) (imei : Str) :
    ((pending imei s).length : ℤ) < max 1 (packetsPerSegment c) := by
  cases hget : s.segments.get imei with
  | none =>
    rw [pending, hget]
    exact lt_max_of_lt_left Int.one_pos
  | some seg =>
    rw [pending_of_get hget]
    rcases hs.short hrunning imei seg hget with hnil | hfull
    · rw [hnil]
      exact lt_max_of_lt_left Int.one_pos
    · rw [DeviceSegment.full, decide_eq_false_iff_not, not_le] at hfull
      exact lt_max_of_lt_right hfull

theorem held_add_length (imei : Str) (opus : Bytes) :
    ((s.held c imei).add opus).packets.length = (pending imei s).length + 1 := by
  rw [DeviceSegment.add, held_packets, List.length_append, List.length_singleton]

theorem Round.rotated {key : Option Bytes} {value : Bytes} {ps : List Put}
    (h : Round c s (.message key value) ps s') (hs : Intact c s) (hrunning : s'.status = .running) :
    ∀ p ∈ ps, (p.seg.packets.length : ℤ) = max 1 (packetsPerSegment c) := by
  intro p hp
  obtain ⟨imei, opus, -, hseg, hfull⟩ := (h.ripe hrunning p.seg).mp ⟨p, hp, rfl⟩
  have hlt := hs.pending_lt h.running imei
  have hlen := held_add_length (c := c) (s := s.tick) imei opus
  have hpending : pending imei s.tick = pending imei s := rfl
  rw [← hseg, hpending] at hlen
  rw [DeviceSegment.full, decide_eq_true_iff] at hfull
  omega

/-- Every Opus packet fits a page. -/
def Small (es : List Event) : Prop := ∀ imei, ∀ opus ∈ heard imei es, opus.length ≤ 65024

/-- No segment comes near the number of pages that an Ogg stream can have. -/
def Few (c : Env) (es : List Event) : Prop :=
  packetsPerSegment c < 2 ^ 32 - 2 ∨ ∀ imei, (heard imei es).length < 2 ^ 32 - 2

theorem heard_interrupt (imei : Str) (es : List Event) :
    heard imei (es ++ [.interrupt]) = heard imei es := by
  rw [heard_append]
  exact List.append_nil _

theorem Small.interrupt {es : List Event} (h : Small es) : Small (es ++ [.interrupt]) := by
  intro imei opus hmem
  rw [heard_interrupt] at hmem
  exact h imei opus hmem

theorem Few.interrupt {es : List Event} (h : Few c es) : Few c (es ++ [.interrupt]) := by
  refine h.imp_right fun h imei ↦ ?_
  rw [heard_interrupt]
  exact h imei

theorem pending_take (e : Event) (imei : Str) :
    pending imei (s.take c e) = pending imei s ++ Batches.added imei (adds e) := by
  have hheld : pending imei (s.take c e) = (Batches.run (abs s) (adds e)).held imei := by
    rw [← abs_take (c := c)]
    rfl
  rw [hheld, adds]
  cases opusOf e with
  | none => simp [Batches.run, Batches.added, abs]
  | some x =>
    obtain ⟨imei', opus⟩ := x
    by_cases h : imei' = imei
    · subst h
      simp [Batches.run, Batches.act, Batches.added, abs]
    · simp [Batches.run, Batches.act, Batches.added, abs, h, Ne.symm h]

theorem heard_take {es : List Event} {e : Event} (hrun : Runs.run (step c) .init es = some s)
    (imei : Str) : heard imei (es ++ [e]) = sent imei s ++ pending imei (s.take c e) := by
  rw [heard_append, heard_one, ← run_conserves hrun, pending_take, List.append_assoc]

theorem take_builds {es : List Event} {e : Event} (hrun : Runs.run (step c) .init es = some s)
    (hrunning : s.status = .running) (hsmall : Small (es ++ [e])) (hfew : Few c (es ++ [e]))
    {imei : Str} {seg : DeviceSegment} (hget : (s.take c e).segments.get imei = some seg) :
    ∃ r, seg.buildOpus = .ok r := by
  have hheard := heard_take (e := e) hrun imei
  rw [pending_of_get hget] at hheard
  have hlen : seg.packets.length < 2 ^ 32 - 2 := by
    rcases hfew with hfew | hfew
    · have hlt := (run_refines hrun).1.pending_lt hrunning imei
      rcases take_get hget with hget' | ⟨opus, -, rfl⟩
      · rw [pending_of_get hget'] at hlt
        omega
      · have hadd := held_add_length (c := c) (s := s.tick) imei opus
        have hpending : pending imei s.tick = pending imei s := rfl
        rw [hpending] at hadd
        omega
    · have h := hfew imei
      rw [hheard, List.length_append] at h
      omega
  refine (OggOpus.mux_total_iff seg.serial hlen).mpr fun p hp ↦ hsmall imei p ?_
  rw [hheard]
  exact List.mem_append_right _ hp

end Sizes

section Bursts

theorem opusOf_buildAudio {key : Option Bytes} {imei : Str} (hkey : keyText key = .ok imei)
    {opus : Bytes} (hne : opus ≠ []) (seq ts ssrc : ℤ) :
    opusOf (.message key (Protocol.buildAudio opus seq ts ssrc)) = some (imei, opus) := by
  have hheader : (Protocol.rtpHeader seq ts ssrc).length = Protocol.rtpHeaderLen := by
    simp [Protocol.rtpHeader, Protocol.rtpHeaderLen]
  have hlong : ¬(Protocol.buildAudio opus seq ts ssrc).length ≤ Protocol.rtpHeaderLen := by
    have hpos := List.length_pos_of_ne_nil hne
    rw [Protocol.buildAudio, List.length_append, hheader]
    omega
  simp only [opusOf, hkey, Protocol.parseAudio, if_neg hlong]
  rw [Protocol.buildAudio, List.drop_left' hheader]

variable {e : Event} {imei : Str} {opus : Bytes}

theorem step_take (hrunning : s.status = .running) (hopus : opusOf e = some (imei, opus)) :
    step c s e = some (conclude c (if ((s.tick.held c imei).add opus).full c then
        flush c (s.tick.hear c imei opus) ((s.tick.held c imei).add opus)
      else (s.tick.hear c imei opus, none))) := by
  obtain ⟨key, value, rfl⟩ := opusOf_message hopus
  rw [opusOf] at hopus
  split at hopus
  · next hkey hparse =>
    obtain ⟨rfl, rfl⟩ : _ = imei ∧ _ = opus := by simpa using hopus
    rw [step, if_pos hrunning, if_neg (by simp), turn, consume_ok hkey hparse]
  · cases hopus

theorem burst_fills (hrunning : s.status = .running) (hopus : opusOf e = some (imei, opus)) (n : ℕ)
    (hn : ((pending imei s).length + n : ℤ) < packetsPerSegment c) :
    ∃ s', Runs.run (step c) s (List.replicate n e) = some s' ∧ s'.status = .running ∧
      pending imei s' = pending imei s ++ List.replicate n opus ∧ s'.puts = s.puts := by
  induction n with
  | zero => exact ⟨s, rfl, hrunning, by simp, rfl⟩
  | succ n ih =>
    obtain ⟨m, hm, hmrunning, hpending, hputs⟩ := ih (by push_cast at hn; omega)
    have hlen := held_add_length (c := c) (s := m.tick) imei opus
    have hopen : ((m.tick.held c imei).add opus).full c = false := by
      have hsame : pending imei m.tick = pending imei m := rfl
      rw [DeviceSegment.full, decide_eq_false_iff_not, hlen, hsame, hpending, List.length_append,
        List.length_replicate]
      push_cast at hn ⊢
      omega
    refine ⟨m.tick.hear c imei opus, ?_, ?_, ?_, ?_⟩
    · rw [List.replicate_succ']
      apply Runs.run_snoc hm
      rw [step_take hmrunning hopus, hopen, if_neg Bool.false_ne_true, conclude_none]
    · rw [hear_status]
      exact hmrunning
    · have hget := hear_get (c := c) (s := m.tick) imei imei opus
      rw [if_pos rfl] at hget
      rw [pending_of_get hget, DeviceSegment.add, held_packets, List.replicate_succ',
        ← List.append_assoc, ← hpending]
      rfl
    · rw [hear_puts]
      exact hputs

theorem heard_replicate (hopus : opusOf e = some (imei, opus)) (imei' : Str) (n : ℕ) :
    heard imei' (List.replicate n e) = if imei = imei' then List.replicate n opus else [] := by
  induction n with
  | zero => split <;> rfl
  | succ n ih =>
    rw [List.replicate_succ', heard_append, ih, heard, List.flatMap_singleton, hopus]
    dsimp only
    split
    · rw [List.replicate_succ']
    · rfl

theorem small_replicate (hopus : opusOf e = some (imei, opus))
    (hsize : opus.length ≤ 65024) (n : ℕ) :
    Small (List.replicate n e) := by
  intro imei' opus' hmem
  rw [heard_replicate hopus] at hmem
  split at hmem
  · rwa [List.eq_of_mem_replicate hmem]
  · cases hmem

theorem exists_put (imei : Str) (hsent : sent imei s ≠ []) : ∃ p ∈ s.puts, p.seg.imei = imei := by
  by_contra hnone
  apply hsent
  rw [sent, List.flatMap_eq_nil_iff]
  intro p hp
  exact if_neg fun h ↦ hnone ⟨p, hp, h⟩

end Bursts

section Stop

theorem Round.ended {e : Event} {ps : List Put} (h : Round c s e ps s') (hkeyed : Keyed s)
    (hcovers : Covers (s.take c e) ps) (imei : Str) : pending imei s' = [] := by
  cases hget : s'.segments.get imei with
  | none =>
    rw [pending, hget]
    rfl
  | some seg =>
    rw [pending_of_get hget]
    by_contra hne
    rcases h.flushes.get hget with hget' | ⟨n, rfl⟩
    · obtain ⟨p, hp, rfl⟩ := hcovers imei seg hget' hne
      rcases h.flushes.fate hget' with ⟨-, hother⟩ | ⟨-, n, hfresh⟩
      · exact hother p hp (take_keyed hkeyed e imei _ hget')
      · apply hne
        rw [Option.some.inj (hget.symm.trans hfresh)]
        rfl
    · exact hne rfl

theorem not_breaks {es : List Event} {e : Event} (hrun : Runs.run (step c) .init es = some s)
    (hrunning : s.status = .running) (hsmall : Small (es ++ [e]))
    (hfew : Few c (es ++ [e])) (x : Exc) :
    ¬Breaks (s.take c e) x := by
  rintro ⟨imei, seg, hget, -, herror⟩
  obtain ⟨r, hr⟩ := take_builds hrun hrunning hsmall hfew hget
  rw [hr] at herror
  cases herror

theorem end_clears {es : List Event} (hrun : Runs.run (step c) .init es = some s)
    (hsmall : Small es) (hfew : Few c es) (hended : s.status ≠ .running) (imei : Str) :
    pending imei s = [] := by
  induction es using List.reverseRecOn with
  | nil =>
    obtain rfl : State.init = s := by simpa using hrun
    exact absurd rfl hended
  | append_singleton es e _ =>
    obtain ⟨m, hm, hstep⟩ := (Runs.run_concat _).mp hrun
    have hkeyed := (run_refines hm).1.keyed
    obtain ⟨ps, hround⟩ := step_round hkeyed hstep
    rcases hround.covers hended with ⟨x, -, hbreaks⟩ | hcovers
    · exact absurd hbreaks (not_breaks hm hround.running hsmall hfew x)
    · exact hround.ended hkeyed hcovers imei

/-- The puts of a message that the loop outlives are of full segments. -/
def Rotates (c : Env) (s : State) (e : Event) (s' : State) : Prop :=
  ∀ key value, e = .message key value → s'.status = .running →
    ∃ closed, s'.puts = s.puts ++ closed ∧
      ∀ p ∈ closed, (p.seg.packets.length : ℤ) = max 1 (packetsPerSegment c)

theorem run_rotates {es : List Event} : Runs.Throughout (step c) (Rotates c) .init es := by
  rintro before _ after m m' - hm hstep key value rfl hrunning
  have hintact := (run_refines hm).1
  obtain ⟨ps, hround⟩ := step_round hintact.keyed hstep
  exact ⟨ps, hround.puts, hround.rotated hintact hrunning⟩

theorem step_running (hrunning : s.status = .running) (e : Event) : ∃ s', step c s e = some s' :=
  ⟨_, if_pos hrunning⟩

theorem interrupt_ends {es : List Event} (hrun : Runs.run (step c) .init es = some s)
    (hlast : es.getLast? = some .interrupt) : s.status ≠ .running := by
  obtain ⟨es, rfl⟩ := List.getLast?_eq_some_iff.mp hlast
  obtain ⟨m, hm, hstep⟩ := (Runs.run_concat _).mp hrun
  obtain ⟨ps, hround⟩ := step_round (run_refines hm).1.keyed hstep
  exact hround.ends rfl

/-- No packet that the segmenter takes is lost, repeated or given to another device. -/
theorem segmenter_conserves {es : List Event} (hrun : Runs.run (step c) .init es = some s) :
    (∀ imei, sent imei s ++ pending imei s = heard imei es) ∧
      (∀ p ∈ s.puts, p.seg.packets ≠ [] ∧ p.seg.buildOpus = .ok (p.data, p.duration)) ∧
      Runs.Throughout (step c) (Rotates c) .init es ∧
      (s.status = .running ∨ Small es ∧ Few c es →
        ∀ imei, ((pending imei s).length : ℤ) < max 1 (packetsPerSegment c)) ∧
      (Small es → Few c es → es.getLast? = some .interrupt → ∀ imei, pending imei s = []) := by
  obtain ⟨hintact, -⟩ := run_refines hrun
  refine ⟨run_conserves hrun, hintact.built, run_rotates,
    fun h imei ↦ ?_, fun hsmall hfew hlast ↦ ?_⟩
  · by_cases hrunning : s.status = .running
    · exact hintact.pending_lt hrunning imei
    · obtain ⟨hsmall, hfew⟩ := h.resolve_left hrunning
      rw [end_clears hrun hsmall hfew hrunning imei]
      exact lt_max_of_lt_left Int.one_pos
  · exact end_clears hrun hsmall hfew (interrupt_ends hrun hlast)

def everyMinute : Env := ⟨60, fun _ ↦ 1700000000, fun _ _ ↦ 0, fun _ ↦ true, fun _ ↦ true⟩

def spoken (opus : Bytes) : Event := .message (some (ascii "A")) (Protocol.buildAudio opus 0 0 0)

theorem opusOf_spoken {opus : Bytes} (hne : opus ≠ []) :
    opusOf (spoken opus) = some (lit "A", opus) :=
  opusOf_buildAudio (by decide) hne 0 0 0

theorem segmenter_conserves_two :
    ∃ s, Runs.run (step everyMinute) .init [spoken [7], spoken [7], .interrupt] = some s ∧
      sent (lit "A") s = [[7], [7]] := by
  have hopus : opusOf (spoken [7]) = some (lit "A", [7]) := opusOf_spoken (by decide)
  obtain ⟨m, hm, hrunning, -, -⟩ :=
    burst_fills (c := everyMinute) (s := .init) rfl hopus 2 (by decide)
  obtain ⟨s, hs⟩ := step_running (c := everyMinute) hrunning .interrupt
  have hrun := Runs.run_snoc hm hs
  obtain ⟨hconserves, -, -, -, hstop⟩ := segmenter_conserves hrun
  have hsmall : Small [spoken [7], spoken [7]] := small_replicate hopus (by decide) 2
  have hsent := hconserves (lit "A")
  rw [hstop hsmall.interrupt (.inl (by decide)) rfl, List.append_nil, heard_interrupt,
    heard_replicate hopus, if_pos rfl] at hsent
  exact ⟨s, hrun, hsent⟩

def overlong : Env := ⟨85899346, fun _ ↦ 0, fun _ _ ↦ 0, fun _ ↦ true, fun _ ↦ true⟩

def fullMessage : Event :=
  .message (some (ascii "A")) (Protocol.buildAudio (List.replicate 65024 0) 0 0 0)

theorem opusOf_fullMessage : opusOf fullMessage = some (lit "A", List.replicate 65024 0) :=
  opusOf_buildAudio (by decide) (by simp [-List.reduceReplicate]) 0 0 0

theorem stop_leaves {n : ℕ} (hn : 2 ^ 32 < n) (hlt : n < 2 ^ 32 + 4) :
    ∃ s, Runs.run (step overlong) .init (List.replicate n fullMessage ++ [.interrupt]) = some s ∧
      pending (lit "A") s ≠ [] := by
  have hopus := opusOf_fullMessage
  have hlimit : packetsPerSegment overlong = 2 ^ 32 + 4 := by decide
  obtain ⟨m, hm, hrunning, hpending, hputs⟩ :=
    burst_fills (c := overlong) (s := .init) rfl hopus n (by
    have hnone : pending (lit "A") .init = [] := rfl
    rw [hlimit, hnone]
    simp only [List.length_nil]
    omega)
  obtain ⟨s, hs⟩ := step_running (c := overlong) hrunning .interrupt
  have hrun := Runs.run_snoc hm hs
  refine ⟨s, hrun, fun hnil ↦ ?_⟩
  have hsent : sent (lit "A") s = List.replicate n (List.replicate 65024 0) := by
    have h := run_conserves hrun (lit "A")
    rwa [hnil, List.append_nil, heard_interrupt, heard_replicate hopus, if_pos rfl] at h
  obtain ⟨p, hp, himei⟩ := exists_put (s := s) (lit "A") (by
    rw [hsent, ← List.length_pos_iff, List.length_replicate]
    omega)
  obtain ⟨ps, hround⟩ := step_round (run_refines hm).1.keyed hs
  rw [hround.puts, hputs] at hp
  have hget := hround.flushes.mem p hp
  rw [himei] at hget
  have hpackets : p.seg.packets = List.replicate n (List.replicate 65024 0) :=
    (pending_of_get (s := m) hget).symm.trans hpending
  obtain ⟨-, hbuild⟩ := hround.flushes.built p hp
  refine OggOpus.mux_overflows p.seg.serial ?_ ?_ _ hbuild
  · rwa [hpackets, List.length_replicate]
  · intro q hq
    rw [hpackets] at hq
    rw [List.eq_of_mem_replicate hq, List.length_replicate]
    decide

/-- Without `Few`, the packets of a segment of more than 2^32 pages stay where they are when the
loop stops. -/
theorem stop_leaves_packets :
    Small (List.replicate (2 ^ 32 + 1) fullMessage ++ [.interrupt]) ∧
      ∃ s, Runs.run (step overlong) .init
          (List.replicate (2 ^ 32 + 1) fullMessage ++ [.interrupt]) = some s ∧
        pending (lit "A") s ≠ [] := by
  refine ⟨Small.interrupt ?_, stop_leaves (Nat.lt_succ_self _) (by omega)⟩
  exact small_replicate opusOf_fullMessage (by rw [List.length_replicate]) _

end Stop

end OpusFleet.Server.Segmenter
