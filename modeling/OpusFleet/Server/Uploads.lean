import OpusFleet.Server.Conservation
import OpusFleet.Server.Listings

namespace OpusFleet.Server.Segmenter

open Python Library

variable {c : Env} {s s' : State} {es : List Event} {e : Event}

section Keys

def DeviceSegment.seconds (seg : DeviceSegment) : ℕ := seg.packets.length * Protocol.frameMs / 1000

/-- Two segments of one device that start within the same second and are
equally long in whole seconds. -/
def SameSlot (seg seg' : DeviceSegment) : Prop :=
  seg.imei = seg'.imei ∧ ⌊seg.startedAt⌋₊ = ⌊seg'.startedAt⌋₊ ∧ seg.seconds = seg'.seconds

theorem Put.Built.truncate_duration {p : Put} (h : p.Built) :
    Storage.truncate p.duration = p.seg.seconds := by
  rw [OggOpus.mux_duration h.2, Storage.truncate_of_nonneg (by positivity)]
  have hms : (p.seg.packets.length * Protocol.frameSamples / 48000 : ℚ) =
      ((p.seg.packets.length * Protocol.frameMs : ℕ) : ℚ) / (1000 : ℕ) := by
    simp only [Protocol.frameSamples, Protocol.frameMs]
    push_cast
    ring
  rw [hms, Rat.floor_natCast_div_natCast]
  rfl

theorem key_eq_iff {p q : Put} (hp : p.Built) (hq : q.Built) :
    p.key = q.key ↔ SameSlot p.seg q.seg := by
  rw [Put.key, Put.key, Storage.keyFor_inj, hp.truncate_duration, hq.truncate_duration,
    Int.natCast_inj]
  rfl

end Keys

section Store

/-- What the bucket holds under the key of a put is the data of some put with that key. -/
def Stored (s : State) : Prop :=
  ∀ p ∈ s.puts, ∃ q ∈ s.puts, q.key = p.key ∧ s.store.get p.key = some q.data

theorem stored_upload (hs : Stored s) (hstores : c.stores s.puts.length = true) (p : Put) :
    Stored (s.upload c p) := by
  rw [State.upload, if_pos hstores]
  intro q hq
  simp only [Dict.get_set]
  by_cases hkey : q.key = p.key
  · exact ⟨p, by simp, hkey.symm, if_pos hkey⟩
  · have hq' : q ∈ s.puts := by
      refine (List.mem_append.mp hq).resolve_right fun h ↦ hkey ?_
      rw [List.mem_singleton.mp h]
    obtain ⟨r, hr, hrkey, hget⟩ := hs q hq'
    exact ⟨r, List.mem_append_left _ hr, hrkey, by rwa [if_neg hkey]⟩

theorem Flushes.stored {ps : List Put} (h : Flushes c s ps s') (hs : Stored s)
    (hstores : ∀ n < s'.puts.length, c.stores n = true) : Stored s' := by
  induction h with
  | nil s => exact hs
  | @cons s s' p ps _ _ hrest ih =>
    apply ih ?_ hstores
    have hlt : s.puts.length < s'.puts.length := by
      rw [hrest.puts, reset_puts, upload_puts, List.length_append, List.length_append,
        List.length_singleton]
      omega
    exact stored_upload hs (hstores _ hlt) p

theorem hear_store (imei : Str) (opus : Bytes) : (s.hear c imei opus).store = s.store := by
  rw [State.hear, State.segment]
  split <;> rfl

theorem take_store (e : Event) : (s.take c e).store = s.store := by
  rw [State.take]
  split
  · exact hear_store _ _
  · split <;> rfl

theorem run_stored (hrun : Runs.run (step c) .init es = some s)
    (hstores : ∀ n < s.puts.length, c.stores n = true) : Stored s := by
  induction es using List.reverseRecOn generalizing s with
  | nil =>
    obtain rfl : State.init = s := by simpa using hrun
    intro p hp
    cases hp
  | append_singleton es e ih =>
    obtain ⟨m, hm, hstep⟩ := (Runs.run_concat _).mp hrun
    obtain ⟨ps, hround⟩ := step_round (run_refines hm).1.keyed hstep
    have hm' : Stored m := by
      refine ih hm fun n hn ↦ hstores n ?_
      rw [hround.puts, List.length_append]
      omega
    refine hround.flushes.stored ?_ hstores
    intro p hp
    rw [take_puts] at hp ⊢
    rw [take_store]
    exact hm' p hp

end Store

section Recordings

def Put.segment (p : Put) : Storage.Segment :=
  ⟨p.seg.imei, p.data, p.seg.startedAt, p.duration, .opus⟩

def Filled (s : State) : Prop := ∃ segs ⊆ s.puts.map Put.segment, s.store = Storage.stored segs

theorem filled_upload (hs : Filled s) (p : Put) : Filled (s.upload c p) := by
  obtain ⟨segs, hsegs, hstore⟩ := hs
  rw [State.upload]
  split
  · refine ⟨segs ++ [p.segment], ?_, ?_⟩
    · rw [List.map_append]
      exact List.append_subset.mpr
        ⟨List.subset_append_of_subset_left _ hsegs, List.subset_append_right _ _⟩
    · simp only [Storage.stored, List.foldl_append] at hstore ⊢
      rw [← hstore]
      rfl
  · refine ⟨segs, ?_, hstore⟩
    rw [List.map_append]
    exact List.subset_append_of_subset_left _ hsegs

theorem Flushes.filled {ps : List Put} (h : Flushes c s ps s') (hs : Filled s) : Filled s' := by
  induction h with
  | nil s => exact hs
  | cons _ _ _ ih => exact ih (filled_upload hs _)

theorem run_filled (hrun : Runs.run (step c) .init es = some s) : Filled s := by
  induction es using List.reverseRecOn generalizing s with
  | nil =>
    obtain rfl : State.init = s := by simpa using hrun
    exact ⟨[], List.nil_subset _, rfl⟩
  | append_singleton es e ih =>
    obtain ⟨m, hm, hstep⟩ := (Runs.run_concat _).mp hrun
    obtain ⟨ps, hround⟩ := step_round (run_refines hm).1.keyed hstep
    obtain ⟨segs, hsegs, hstore⟩ := ih hm
    have htake : Filled (m.take c e) := ⟨segs, by rwa [take_puts], by rwa [take_store]⟩
    exact hround.flushes.filled htake

/-- In every run, the listing of a device tells of its own puts only, as long as no put of another
device lies in its directory. -/
theorem run_listing {store : Storage.SegmentStore} {imei : Str} {date : Option Str}
    {it : Storage.Item} (hrun : Runs.run (step c) .init es = some s)
    (hplants : ∀ p ∈ s.puts, ¬ Storage.Plants imei p.segment)
    (hit : it ∈ Storage.listSegments store s.store imei date Storage.defaultLimit) :
    ∃ p ∈ s.puts, p.seg.imei = imei ∧ p.key = it.key := by
  obtain ⟨segs, hsegs, hstore⟩ := run_filled hrun
  have hunmixed : Storage.Unmixed store segs imei := by
    refine Storage.unmixed_of_clear fun seg hseg ↦ ?_
    obtain ⟨p, hp, rfl⟩ := List.mem_map.mp (hsegs hseg)
    exact hplants p hp
  obtain ⟨⟨seg, hseg, hkey⟩, honly⟩ := hunmixed.segments date it (hstore ▸ hit)
  obtain ⟨p, hp, rfl⟩ := List.mem_map.mp (hsegs hseg)
  exact ⟨p, hp, honly _ hseg hkey, hkey⟩

end Recordings

section Start

def Stamped (c : Env) (s : State) : Prop :=
  (∀ imei seg, s.segments.get imei = some seg → ∃ n, seg.startedAt = c.clock n) ∧
    ∀ p ∈ s.puts, ∃ n, p.seg.startedAt = c.clock n

theorem Round.stamped {ps : List Put} (h : Round c s e ps s') (hs : Stamped c s) :
    Stamped c s' := by
  have htake (imei : Str) (seg : DeviceSegment) (hget : (s.take c e).segments.get imei = some seg) :
      ∃ n, seg.startedAt = c.clock n := by
    rcases take_get hget with hget | ⟨opus, -, rfl⟩
    · exact hs.1 imei seg hget
    · rcases held_cases (c := c) s.tick imei with hheld | ⟨-, hheld⟩
      · exact hs.1 imei (s.tick.held c imei) hheld
      · exact ⟨_, congrArg (·.startedAt) hheld⟩
  constructor
  · intro imei seg hget
    rcases h.flushes.get hget with hget | ⟨n, rfl⟩
    · exact htake imei seg hget
    · exact ⟨n, rfl⟩
  · intro p hp
    rw [h.puts] at hp
    rcases List.mem_append.mp hp with hp | hp
    · exact hs.2 p hp
    · exact htake _ _ (h.flushes.mem p hp)

theorem run_stamped (hrun : Runs.run (step c) .init es = some s) : Stamped c s := by
  induction es using List.reverseRecOn generalizing s with
  | nil =>
    obtain rfl : State.init = s := by simpa using hrun
    exact ⟨by simp [State.init], by simp [State.init]⟩
  | append_singleton es e ih =>
    obtain ⟨m, hm, hstep⟩ := (Runs.run_concat _).mp hrun
    obtain ⟨ps, hround⟩ := step_round (run_refines hm).1.keyed hstep
    exact hround.stamped (ih hm)

end Start

section Bursts

variable {imei : Str} {opus : Bytes}

theorem small_packets (hsize : opus.length ≤ 65024) {n : ℕ} :
    ∀ p ∈ List.replicate n opus, p.length ≤ 65024 := by
  intro p hp
  rwa [List.eq_of_mem_replicate hp]

theorem burst_closes (hrun : Runs.run (step c) .init es = some s) (hrunning : s.status = .running)
    (hopus : opusOf e = some (imei, opus)) (hnil : pending imei s = []) {n : ℕ}
    (hn : (n + 1 : ℤ) = packetsPerSegment c) (hlen : n + 1 < 2 ^ 32 - 2)
    (hsize : opus.length ≤ 65024) :
    ∃ s' p, Runs.run (step c) s (List.replicate (n + 1) e) = some s' ∧ s'.status = .running ∧
      pending imei s' = [] ∧ s'.puts = s.puts ++ [p] ∧ p.seg.imei = imei ∧
      p.seg.packets = List.replicate (n + 1) opus := by
  obtain ⟨m, hm, hmrunning, hpending, hputs⟩ := burst_fills (c := c) hrunning hopus n (by
    rw [hnil, List.length_nil]
    omega)
  rw [hnil, List.nil_append] at hpending
  have hkeyed : Keyed m := (run_refines (Runs.run_trans hrun hm)).1.keyed
  have hpackets : ((m.tick.held c imei).add opus).packets = List.replicate (n + 1) opus := by
    rw [DeviceSegment.add, held_packets, List.replicate_succ', ← hpending]
    rfl
  have hfull : ((m.tick.held c imei).add opus).full c = true := by
    rw [DeviceSegment.full, decide_eq_true_iff, hpackets, List.length_replicate]
    push_cast
    omega
  have himei : ((m.tick.held c imei).add opus).imei = imei := held_imei (s := m.tick) hkeyed imei
  obtain ⟨hempty, -⟩ | ⟨x, -, herror, -⟩ | ⟨p, hp, hbuilt, hflush⟩ :=
    flush_cases (c := c) (m.tick.hear c imei opus) ((m.tick.held c imei).add opus)
  · rw [hpackets] at hempty
    cases hempty
  · obtain ⟨r, hr⟩ := (OggOpus.mux_total_iff ((m.tick.held c imei).add opus).serial
      (by rwa [List.length_replicate])).mpr (small_packets hsize (n := n + 1))
    rw [DeviceSegment.buildOpus, hpackets, hr] at herror
    cases herror
  · rw [List.replicate_succ']
    have hstep : step c m e = some (((m.tick.hear c imei opus).upload c p).reset c p.seg.imei) := by
      rw [step_take hmrunning hopus, hfull, if_pos rfl, hflush, conclude_none]
    have hpimei : p.seg.imei = imei := by rw [hp, himei]
    refine ⟨_, p, Runs.run_snoc hm hstep, ?_, ?_, ?_, hpimei, by rw [hp, hpackets]⟩
    · rw [reset_status, upload_status, hear_status]
      exact hmrunning
    · rw [pending, reset_get, hpimei, if_pos rfl]
      rfl
    · rw [reset_puts, upload_puts, hear_puts]
      exact congrArg (· ++ [p]) hputs

end Bursts

section Kept

/-- The segments that a round hands over: the ripe ones, and the
pending ones if it ends the loop. -/
def Closes (c : Env) (s : State) (e : Event) (seg : DeviceSegment) : Prop :=
  Ripe c s e seg ∨ (∃ x, Crashes c s e x) ∧
    (s.take c e).segments.get seg.imei = some seg ∧ seg.packets ≠ []

/-- The event closes a segment whose slot an earlier segment of the device has taken. -/
def Clashes (c : Env) (s : State) (e : Event) : Prop :=
  ∃ seg, Closes c s e seg ∧ ∃ p ∈ s.puts, SameSlot p.seg seg

def Kept (s : State) : Prop := (s.puts.map Put.key).Nodup ∧
    ∀ p ∈ s.puts, s.store.get p.key = some p.data

theorem Round.closes {ps : List Put} (h : Round c s e ps s') : ∀ p ∈ ps, Closes c s e p.seg := by
  intro p hp
  have hpending : (s.take c e).segments.get p.seg.imei = some p.seg ∧ p.seg.packets ≠ [] :=
    ⟨h.flushes.mem p hp, (h.flushes.built p hp).1⟩
  by_cases hrunning : s'.status = .running
  · exact .inl ((h.ripe hrunning p.seg).mp ⟨p, hp, rfl⟩)
  · rcases h.halts.mp hrunning with rfl | hcrash
    · exact .inl hpending
    · exact .inr ⟨hcrash, hpending⟩

theorem Round.hands {ps : List Put} {seg : DeviceSegment} (h : Round c s e ps s') (hkeyed : Keyed s)
    (hsound : ∀ x, s'.status ≠ .raised x) (hseg : Closes c s e seg) : ∃ p ∈ ps, p.seg = seg := by
  by_cases hrunning : s'.status = .running
  · rcases hseg with hripe | ⟨hcrash, -⟩
    · exact (h.ripe hrunning seg).mpr hripe
    · exact absurd hrunning (h.halts.mpr (.inr hcrash))
  · rcases h.covers hrunning with ⟨x, hx, -⟩ | hcovers
    · exact absurd hx (hsound x)
    · obtain ⟨hget, hne⟩ : (s.take c e).segments.get seg.imei = some seg ∧ seg.packets ≠ [] := by
        rcases hseg with hripe | ⟨-, hpending⟩
        · exact hripe.pending hkeyed
        · exact hpending
      exact hcovers seg.imei seg hget hne

theorem Round.slots {ps : List Put} (h : Round c s e ps s') (hclash : ¬Clashes c s e)
    (hs : s.puts.Pairwise fun p q ↦ ¬SameSlot p.seg q.seg) :
    s'.puts.Pairwise fun p q ↦ ¬SameSlot p.seg q.seg := by
  rw [h.puts, List.pairwise_append]
  refine ⟨hs, h.flushes.distinct.imp fun hne hslot ↦ hne hslot.1, fun p hp q hq hslot ↦ ?_⟩
  exact hclash ⟨q.seg, h.closes q hq, p, hp, hslot⟩

theorem kept_iff (hrun : Runs.run (step c) .init es = some s)
    (hstores : ∀ n < s.puts.length, c.stores n = true) :
    Kept s ↔ s.puts.Pairwise fun p q ↦ ¬SameSlot p.seg q.seg := by
  have hbuilt := (run_refines hrun).1.built
  have hnodup : (s.puts.map Put.key).Nodup ↔ s.puts.Pairwise fun p q ↦ ¬SameSlot p.seg q.seg := by
    rw [List.Nodup, List.pairwise_map]
    exact List.Pairwise.iff_of_mem fun hp hq ↦ (key_eq_iff (hbuilt _ hp) (hbuilt _ hq)).not
  refine ⟨fun h ↦ hnodup.mp h.1, fun h ↦ ⟨hnodup.mpr h, fun p hp ↦ ?_⟩⟩
  obtain ⟨q, hq, hkey, hget⟩ := run_stored hrun hstores p hp
  rw [hget, List.inj_on_of_nodup_map (hnodup.mpr h) hq hp hkey]

theorem run_extends {es' : List Event} (hrun : Runs.run (step c) .init es = some s)
    (hrest : Runs.run (step c) s es' = some s') :
    (∃ ps, s'.puts = s.puts ++ ps) ∧ (s' = s ∨ s.status = .running) := by
  induction es' using List.reverseRecOn generalizing s' with
  | nil =>
    obtain rfl : s = s' := by simpa using hrest
    exact ⟨⟨[], by simp⟩, .inl rfl⟩
  | append_singleton es' e ih =>
    obtain ⟨m, hm, hstep⟩ := (Runs.run_concat _).mp hrest
    obtain ⟨⟨ps, hps⟩, hsame⟩ := ih hm
    obtain ⟨ps', hround⟩ := step_round (run_refines (Runs.run_trans hrun hm)).1.keyed hstep
    refine ⟨⟨ps ++ ps', by rw [hround.puts, hps, List.append_assoc]⟩, .inr ?_⟩
    rcases hsame with rfl | hrunning
    · exact hround.running
    · exact hrunning

theorem run_slots (hrun : Runs.run (step c) .init es = some s)
    (hclash : Runs.Throughout (step c) (fun s e _ ↦ ¬Clashes c s e) .init es) :
    s.puts.Pairwise fun p q ↦ ¬SameSlot p.seg q.seg := by
  refine Runs.run_induction (I := fun _ s ↦ s.puts.Pairwise fun p q ↦ ¬SameSlot p.seg q.seg)
    .nil ?_ hclash hrun
  intro es m e m' hm hslots hne hstep
  obtain ⟨ps, hround⟩ := step_round (run_refines hm).1.keyed hstep
  exact hround.slots hne hslots

/-- A run that raises nothing and in which no two puts share a slot has no clashes. -/
theorem slots_unclashed (hrun : Runs.run (step c) .init es = some s)
    (hsound : ∀ x, s.status ≠ .raised x)
    (hslots : s.puts.Pairwise fun p q ↦ ¬SameSlot p.seg q.seg) :
    Runs.Throughout (step c) (fun s e _ ↦ ¬Clashes c s e) .init es := by
  rintro before e after m m' rfl hm hstep ⟨seg, hseg, p, hp, hslot⟩
  have hkeyed := (run_refines hm).1.keyed
  obtain ⟨ps, hround⟩ := step_round hkeyed hstep
  have hm' := Runs.run_snoc hm hstep
  have hrest : Runs.run (step c) m' after = some s := by
    rw [← List.singleton_append, ← List.append_assoc, Runs.run_append, hm'] at hrun
    exact hrun
  obtain ⟨⟨ps', hputs⟩, hsame⟩ := run_extends hm' hrest
  have hstatus (x : Exc) : m'.status ≠ .raised x := by
    rcases hsame with rfl | hrunning
    · exact hsound x
    · rw [hrunning]
      exact Status.noConfusion
  obtain ⟨q, hq, rfl⟩ := hround.hands hkeyed hstatus hseg
  rw [hputs, hround.puts, List.pairwise_append, List.pairwise_append] at hslots
  exact hslots.1.2.2 p hp q hq hslot

/-- No upload replaces another in a run without clashes, and a run that raises nothing has none
if no upload replaces another. -/
theorem uploads_kept_iff (hrun : Runs.run (step c) .init es = some s)
    (hstores : ∀ n < s.puts.length, c.stores n = true) :
    (Runs.Throughout (step c) (fun s e _ ↦ ¬Clashes c s e) .init es → Kept s) ∧
      ((∀ x, s.status ≠ .raised x) → Kept s →
        Runs.Throughout (step c) (fun s e _ ↦ ¬Clashes c s e) .init es) := by
  rw [kept_iff hrun hstores]
  exact ⟨run_slots hrun, slots_unclashed hrun⟩

/-- A segment ends with its first packet, and for a minute the clock moves
by a second with each reading. -/
def everyPacket : Env :=
  { everyMinute with segmentSeconds := 0, clock := fun n ↦ everyMinute.clock n + (min n 60 : ℕ) }

theorem two_unclashed :
    ∃ s, Runs.run (step everyPacket) .init [spoken [7], spoken [8], .interrupt] = some s ∧
      s.puts.map Put.key = [lit "A/2023-11-14/221321_0s.opus", lit "A/2023-11-14/221323_0s.opus"] ∧
      Runs.Throughout (step everyPacket) (fun s e _ ↦ ¬Clashes everyPacket s e) .init
        [spoken [7], spoken [8], .interrupt] := by
  have hended : (Runs.run (step everyPacket) .init [spoken [7], spoken [8], .interrupt]).map
      (fun s ↦ (s.status, s.puts.map fun p ↦ (p.key, p.seg.startedAt))) =
        some (.stopped, [(lit "A/2023-11-14/221321_0s.opus", 1700000001),
          (lit "A/2023-11-14/221323_0s.opus", 1700000003)]) := by decide +kernel
  obtain ⟨s, hrun, hs⟩ := Option.map_eq_some_iff.mp hended
  obtain ⟨hstatus, hputs⟩ := Prod.mk.inj hs
  have hkeys := congrArg (List.map Prod.fst) hputs
  have hstarts := congrArg (List.map fun x : Str × ℚ≥0 ↦ ⌊x.2⌋₊) hputs
  rw [List.map_map] at hkeys hstarts
  have hseconds : (s.puts.map fun p ↦ ⌊p.seg.startedAt⌋₊) = [1700000001, 1700000003] :=
    hstarts.trans (by simp)
  have hdistinct : (s.puts.map fun p ↦ ⌊p.seg.startedAt⌋₊).Nodup := hseconds ▸ by decide
  refine ⟨s, hrun, hkeys, slots_unclashed hrun (fun x ↦ hstatus ▸ Status.noConfusion) ?_⟩
  exact (List.pairwise_map.mp hdistinct).imp fun hne hslot ↦ hne hslot.2.1

theorem uploads_kept_iff_two :
    ∃ s, Runs.run (step everyPacket) .init [spoken [7], spoken [8], .interrupt] = some s ∧
      s.puts.length = 2 ∧ Kept s := by
  obtain ⟨s, hrun, hkeys, hclash⟩ := two_unclashed
  exact ⟨s, hrun, by simpa using congrArg List.length hkeys,
    (uploads_kept_iff hrun fun _ _ ↦ rfl).1 hclash⟩

/-- Two minutes of audio that arrive within one second: the second segment replaces the first. -/
theorem burst_overwrites :
    ∃ s, Runs.run (step everyMinute) .init
        (List.replicate 3000 (spoken [7]) ++ List.replicate 3000 (spoken [8])) = some s ∧
      ¬(s.puts.map Put.key).Nodup ∧ ∃ p ∈ s.puts, s.store.get p.key ≠ some p.data := by
  have hinit : Runs.run (step everyMinute) .init [] = some .init := rfl
  obtain ⟨m, p, hm, hrunning, hnil, hputs, hpimei, hp⟩ := burst_closes hinit rfl
    (opusOf_spoken (show [7] ≠ [] by decide)) rfl (n := 2999) (by decide) (by decide) (by decide)
  obtain ⟨s, q, hs, -, -, hputs', hqimei, hq⟩ := burst_closes (c := everyMinute) hm hrunning
    (opusOf_spoken (show [8] ≠ [] by decide)) hnil (n := 2999) (by decide) (by decide) (by decide)
  have hrun := Runs.run_trans hm hs
  have htwo : s.puts = [p, q] := by rw [hputs', hputs]; rfl
  have hbuilt := (run_refines hrun).1.built
  have hstamp := (run_stamped hrun).2
  rw [htwo] at hbuilt hstamp
  obtain ⟨_, hpstart⟩ := hstamp p (by simp)
  obtain ⟨_, hqstart⟩ := hstamp q (by simp)
  have hkey : p.key = q.key := by
    rw [key_eq_iff (hbuilt p (by simp)) (hbuilt q (by simp))]
    refine ⟨hpimei.trans hqimei.symm, by rw [hpstart, hqstart]; rfl, ?_⟩
    rw [DeviceSegment.seconds, DeviceSegment.seconds, hp, hq, List.length_replicate,
      List.length_replicate]
  have hdata : p.data ≠ q.data := by
    intro hsame
    have hpbuild := (hbuilt p (by simp)).2
    have hqbuild := (hbuilt q (by simp)).2
    rw [DeviceSegment.buildOpus, hp] at hpbuild
    rw [DeviceSegment.buildOpus, hq, ← hsame] at hqbuild
    have hpackets := OggOpus.mux_inj (by simp [-List.reduceReplicate])
      (by rw [List.length_replicate]; decide) (small_packets (by decide))
      (by simp [-List.reduceReplicate]) (by rw [List.length_replicate]; decide)
      (small_packets (by decide)) hpbuild hqbuild
    rw [List.replicate_inj] at hpackets
    exact absurd hpackets.2 (by decide)
  refine ⟨s, hrun, by simp [htwo, hkey], ?_⟩
  obtain ⟨r, hr, -, hget⟩ := run_stored hrun (fun _ _ ↦ rfl) p (by simp [htwo])
  rw [htwo] at hr ⊢
  rcases List.mem_cons.mp hr with rfl | hr
  · refine ⟨q, by simp, fun hq ↦ hdata ?_⟩
    exact Option.some.inj (hget.symm.trans (hkey ▸ hq))
  · obtain rfl := List.mem_singleton.mp hr
    exact ⟨p, by simp, fun hp ↦ hdata (Option.some.inj (hp.symm.trans hget))⟩

end Kept

end OpusFleet.Server.Segmenter
