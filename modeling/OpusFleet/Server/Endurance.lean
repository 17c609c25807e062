import OpusFleet.Server.Conservation

namespace OpusFleet.Server.Segmenter

open Python Library

variable {c : Env} {s s' : State} {es : List Event} {e : Event}

section Sufficient

theorem heard_mono {imei : Str} {opus : Bytes} (h : opus ∈ heard imei es) :
    opus ∈ heard imei (es ++ [e]) := by
  rw [heard_append]
  exact List.mem_append_left _ h

theorem Small.init (h : Small (es ++ [e])) : Small es :=
  fun imei opus hmem ↦ h imei opus (heard_mono hmem)

theorem Few.init (h : Few c (es ++ [e])) : Few c es := by
  refine h.imp_right fun h imei ↦ ?_
  have hlen := h imei
  rw [heard_append, List.length_append] at hlen
  omega

/-- What the loop meets before it is interrupted, with keys that ingest gives its messages. -/
def Ingested : Event → Prop
  | .message key _ => ∃ imei, keyText key = .ok imei
  | .interrupt => False
  | _ => True

theorem Round.goes_on {ps : List Put} (h : Round c s e ps s') (he : Ingested e)
    (hbreaks : ∀ x, ¬Breaks (s.take c e) x) : s'.status = .running := by
  cases hstatus : s'.status with
  | running => rfl
  | stopped =>
    rw [h.stops hstatus] at he
    exact he.elim
  | raised x =>
    rcases h.raises x hstatus with ⟨key, value, rfl, hkey⟩ | hx
    · obtain ⟨imei, himei⟩ := he
      rw [himei] at hkey
      cases hkey
    · exact absurd hx (hbreaks x)

theorem run_goes_on (hes : ∀ e ∈ es, Ingested e) (hsmall : Small es) (hfew : Few c es) :
    ∃ m, Runs.run (step c) .init es = some m ∧ m.status = .running := by
  induction es using List.reverseRecOn with
  | nil => exact ⟨.init, rfl, rfl⟩
  | append_singleton es e ih =>
    obtain ⟨m, hm, hrunning⟩ := ih (fun e' he' ↦ hes e' (by simp [he'])) hsmall.init hfew.init
    obtain ⟨m', hstep⟩ := step_running (c := c) hrunning e
    obtain ⟨ps, hround⟩ := step_round (run_refines hm).1.keyed hstep
    refine ⟨m', Runs.run_snoc hm hstep, hround.goes_on (hes e (by simp)) ?_⟩
    exact not_breaks hm hrunning hsmall hfew

end Sufficient

section Survival

/-- The loop takes all events, and when it is interrupted all pending segments are handed to
`put_segment` and it stops in order. -/
def Survives (c : Env) (es : List Event) : Prop :=
  ∃ m, Runs.run (step c) .init es = some m ∧ m.status = .running ∧
    ∃ s, step c m .interrupt = some s ∧ s.status = .stopped ∧
      ∃ ps, s.puts = m.puts ++ ps ∧
        ∀ imei seg, m.segments.get imei = some seg → seg.packets ≠ [] → ∃ p ∈ ps, p.seg = seg

theorem survives_of_small (hes : ∀ e ∈ es, Ingested e) (hsmall : Small es) (hfew : Few c es) :
    Survives c es := by
  obtain ⟨m, hm, hrunning⟩ := run_goes_on hes hsmall hfew
  obtain ⟨s, hs⟩ := step_running (c := c) hrunning .interrupt
  obtain ⟨ps, hround⟩ := step_round (run_refines hm).1.keyed hs
  have hbreaks := not_breaks (e := .interrupt) hm hrunning hsmall.interrupt hfew.interrupt
  refine ⟨m, hm, hrunning, s, hs, ?_, ps, hround.puts, ?_⟩
  · cases hstatus : s.status with
    | stopped => rfl
    | running => exact absurd hstatus (hround.ends rfl)
    | raised x =>
      rcases hround.raises x hstatus with ⟨_, _, he, -⟩ | hx
      · cases he
      · exact absurd hx (hbreaks x)
  · rcases hround.covers (hround.ends rfl) with ⟨x, -, hx⟩ | hcovers
    · exact absurd hx (hbreaks x)
    · exact hcovers

theorem Put.Built.small {p : Put} (h : p.Built) : ∀ opus ∈ p.seg.packets, opus.length ≤ 65024 := by
  obtain ⟨_, _, _, hadds, hflush⟩ := OggOpus.mux_inv h.2
  exact OggOpus.small_of_written hadds hflush

theorem small_of_survives (h : Survives c es) : Small es := by
  obtain ⟨m, hm, -, s, hs, -, ps, hputs, hall⟩ := h
  have hintact := (run_refines hm).1
  obtain ⟨ps', hround⟩ := step_round hintact.keyed hs
  intro imei opus hmem
  rw [← run_conserves hm] at hmem
  rcases List.mem_append.mp hmem with hmem | hmem
  · obtain ⟨p, hp, hopus⟩ := List.mem_flatMap.mp hmem
    split at hopus
    · exact (hintact.built p hp).small opus hopus
    · cases hopus
  · rw [pending] at hmem
    cases hget : m.segments.get imei with
    | none => simp [hget] at hmem
    | some seg =>
      rw [hget] at hmem
      obtain ⟨p, hp, rfl⟩ := hall imei seg hget (List.ne_nil_of_mem hmem)
      have hsame : ps = ps' := List.append_cancel_left (hputs.symm.trans hround.puts)
      exact (hround.flushes.built p (hsame ▸ hp)).small opus hmem

/-- The segmenter lives through its messages exactly if the packets
fit the segment table of a page. -/
theorem survives_iff (hes : ∀ e ∈ es, Ingested e) :
    (Small es ∧ Few c es → Survives c es) ∧ (Survives c es → Small es) ∧
      ∀ (serial : ℤ) (packets : List Bytes), packets.length < 2 ^ 32 - 2 →
        ((∃ r, OggOpus.mux serial Protocol.channels Protocol.frameSamples OggOpus.preSkip
            packets = .ok r) ↔
          ∀ p ∈ packets, p.length ≤ 65024) := by
  refine ⟨fun h ↦ survives_of_small hes h.1 h.2, small_of_survives, ?_⟩
  intro serial packets hlen
  exact OggOpus.mux_total_iff serial hlen

theorem survives_iff_two : Survives everyMinute [spoken [7], spoken [7]] := by
  have hsmall : Small [spoken [7], spoken [7]] :=
    small_replicate (opusOf_spoken (by decide)) (by decide) 2
  refine (survives_iff fun e he ↦ ?_).1 ⟨hsmall, ?_⟩
  · obtain rfl : e = spoken [7] := by simpa using he
    exact ⟨lit "A", by decide⟩
  · exact .inl (by decide)

/-- One packet of 65523 bytes, the longest that a frame holds, ends the loop. -/
theorem long_packet_ends :
    (∀ e ∈ [spoken (List.replicate 65523 0)], Ingested e) ∧
      (Protocol.buildAudio (List.replicate 65523 0) 0 0 0).length = Protocol.maxFrame ∧
      ¬Survives everyMinute [spoken (List.replicate 65523 0)] := by
  have hopus : opusOf (spoken (List.replicate 65523 0)) = some (lit "A", List.replicate 65523 0) :=
    opusOf_spoken (by simp [-List.reduceReplicate])
  refine ⟨?_, ?_, fun h ↦ ?_⟩
  · intro e he
    obtain rfl := List.mem_singleton.mp he
    exact ⟨lit "A", by decide⟩
  · rw [Protocol.buildAudio, List.length_append, List.length_replicate]
    rfl
  · have hmem : List.replicate 65523 0 ∈ heard (lit "A") [spoken (List.replicate 65523 0)] := by
      rw [heard, List.flatMap_singleton, hopus]
      exact List.mem_singleton_self _
    have hlen := small_of_survives h _ _ hmem
    rw [List.length_replicate] at hlen
    omega

end Survival

end OpusFleet.Server.Segmenter
