import OpusFleet.Server.Browsing
import OpusFleet.Server.Recordings

namespace OpusFleet.Server

open Python Library

namespace Storage

variable {store : SegmentStore} {segs : List Segment} {imei : Str}

theorem get_stored {seg : Segment} (hseg : seg ∈ segs)
    (hsole : ∀ seg' ∈ segs, seg'.key = seg.key → seg' = seg) :
    (stored segs).get seg.key = some seg.data := by
  induction segs using List.reverseRecOn with
  | nil => cases hseg
  | append_singleton segs last ih =>
    have hput : stored (segs ++ [last]) = putSegment (stored segs) last := by simp [stored]
    rw [hput, putSegment, Dict.get_set]
    split
    · next hkey => rw [hsole last (by simp) hkey.symm]
    · next hkey =>
      have hseg' : seg ∈ segs := by
        refine (List.mem_append.mp hseg).resolve_right fun hlast ↦ hkey ?_
        rw [List.mem_singleton.mp hlast]
      exact ih hseg' fun seg' hmem ↦ hsole seg' (List.mem_append_left _ hmem)

theorem listed_keys (store : SegmentStore) (honce : store.client.Once)
    (hplants : ∀ seg ∈ segs, ¬Plants imei seg) {keys : List Str} (hsorted : keys.Pairwise (· < ·))
    (hkeys : ∀ key, key ∈ keys ↔ ∃ seg ∈ segs, seg.imei = imei ∧ seg.key = key) {limit : ℤ}
    (hlimit : 1 ≤ limit) :
    (listSegments store (stored segs) imei none limit).map Item.key =
    (keys.rtake limit.toNat).reverse := by
  obtain ⟨keys', hsorted', hmem, hlisted⟩ := exists_keys store honce segs imei none hlimit
  have hsame : keys' = keys := by
    refine List.Pairwise.eq_of_mem_iff hsorted' hsorted fun key ↦ ?_
    rw [hmem, hkeys]
    constructor
    · rintro ⟨⟨seg, hseg, rfl⟩, hhead⟩
      exact ⟨seg, hseg, (below_device hplants hseg).mp hhead, rfl⟩
    · rintro ⟨seg, hseg, himei, rfl⟩
      exact ⟨⟨seg, hseg, rfl⟩, (below_device hplants hseg).mpr himei⟩
  rw [hlisted, hsame]

end Storage

namespace Segmenter

open Runs

variable {c : Env} {s s' : State} {e : Event} {es : List Event}

section Order

structure Chronicle (c : Env) (s : State) : Prop where
  past : Past c s
  begun : ∀ p ∈ s.puts, p.seg.startedAt ≤ c.clock s.ticks
  later : ∀ p ∈ s.puts, ∀ seg, s.segments.get p.seg.imei = some seg →
    p.seg.startedAt ≤ seg.startedAt
  order : s.puts.Pairwise fun p q ↦ p.seg.imei = q.seg.imei → p.seg.startedAt ≤ q.seg.startedAt

theorem upload_ticks (p : Put) : s.ticks ≤ (s.upload c p).ticks := by
  rw [State.upload]
  split
  · exact Nat.le_succ _
  · exact le_rfl

theorem take_ticks (e : Event) : s.tick.ticks ≤ (s.take c e).ticks := by
  rw [State.take]
  split
  · rw [State.hear, State.segment]
    split
    · exact le_rfl
    · exact Nat.le_succ _
  · split
    · exact Nat.le_succ _
    · exact le_rfl

variable (hclock : Monotone c.clock)
include hclock

theorem Chronicle.put (h : Chronicle c s) {p : Put}
    (hget : s.segments.get p.seg.imei = some p.seg) :
    Chronicle c ((s.upload c p).reset c p.seg.imei) := by
  have hticks : c.clock s.ticks ≤ c.clock (s.upload c p).ticks := hclock (upload_ticks p)
  have hbegun : ∀ q ∈ s.puts ++ [p], q.seg.startedAt ≤ c.clock (s.upload c p).ticks := by
    refine List.forall_mem_append.mpr ⟨fun q hq ↦ (h.begun q hq).trans hticks, ?_⟩
    exact List.forall_mem_singleton.mpr ((h.past _ _ hget).trans hticks)
  refine ⟨past_reset hclock (past_upload hclock h.past p) _, ?_, ?_, ?_⟩
  · rw [reset_puts, upload_puts]
    exact fun q hq ↦ (hbegun q hq).trans (hclock (Nat.le_succ _))
  · rw [reset_puts, upload_puts]
    intro q hq seg hseg
    rw [reset_get] at hseg
    split at hseg
    · obtain rfl := Option.some.inj hseg
      exact hbegun q hq
    · next himei =>
      rw [upload_segments] at hseg
      rcases List.mem_append.mp hq with hq | hq
      · exact h.later q hq seg hseg
      · exact absurd (congrArg (·.seg.imei) (List.mem_singleton.mp hq)) himei
  · rw [reset_puts, upload_puts, List.pairwise_append]
    refine ⟨h.order, List.pairwise_singleton _ _, fun q hq r hr himei ↦ ?_⟩
    obtain rfl := List.mem_singleton.mp hr
    exact h.later q hq _ (himei ▸ hget)

theorem Flushes.chronicle {ps : List Put} (hps : Flushes c s ps s') (h : Chronicle c s) :
    Chronicle c s' := by
  induction hps with
  | nil => exact h
  | cons hget _ _ ih => exact ih (h.put hclock hget)

theorem Chronicle.take (h : Chronicle c s) (e : Event) : Chronicle c (s.take c e) := by
  have hnow : c.clock s.ticks ≤ c.clock s.tick.ticks := hclock (Nat.le_succ _)
  refine ⟨past_take hclock h.past e, ?_, ?_, ?_⟩
  · rw [take_puts]
    exact fun p hp ↦ ((h.begun p hp).trans hnow).trans (hclock (take_ticks e))
  · rw [take_puts]
    intro p hp seg hget
    rcases take_get hget with hget | ⟨opus, -, rfl⟩
    · exact h.later p hp seg hget
    · rcases held_cases (c := c) s.tick p.seg.imei with hheld | ⟨-, hheld⟩
      · exact h.later p hp (s.tick.held c p.seg.imei) hheld
      · rw [hheld]
        exact (h.begun p hp).trans hnow
  · rw [take_puts]
    exact h.order

theorem run_chronicle (hrun : run (step c) .init es = some s) : Chronicle c s := by
  induction es using List.reverseRecOn generalizing s with
  | nil =>
    obtain rfl : State.init = s := by simpa using hrun
    exact ⟨by simp [Past, State.init], by simp [State.init], by simp [State.init], .nil⟩
  | append_singleton es e ih =>
    obtain ⟨m, hm, hstep⟩ := (run_concat _).mp hrun
    obtain ⟨ps, hround⟩ := step_round (run_refines hm).1.keyed hstep
    obtain ⟨hpast, hbegun, hlater, horder⟩ :=
      hround.flushes.chronicle hclock ((ih hm).take hclock e)
    exact ⟨hpast, hbegun, hlater, horder⟩

end Order

section Playback

/-- What a player makes of a listing that it goes through from its end, since the
newest recording comes first. -/
def played (store : Storage.SegmentStore) (bucket : Storage.Bucket) (imei : Str) (limit : ℤ) :
    List (Option (List Bytes)) :=
  (Storage.listSegments store bucket imei none limit).reverse.map fun it ↦
  (bucket.get it.key).bind packetsOf

theorem recordings_keys (hclock : Monotone c.clock)
    (hyears : ∀ n, (Storage.gmtime (c.clock n)).date.year ≤ 9999)
    (hrun : run (step c) .init es = some s) {imei : Str}
    (hseconds : ((recordings c imei s).map fun p ↦ ⌊p.seg.startedAt⌋₊).Nodup) :
    ((recordings c imei s).map Put.key).Pairwise (· < ·) := by
  have hyear : ∀ p ∈ s.puts, (Storage.gmtime p.seg.startedAt).date.year ≤ 9999 := by
    intro p hp
    obtain ⟨n, hn⟩ := (run_stamped hrun).2 p hp
    rw [hn]
    exact hyears n
  have hsub : (recordings c imei s).Sublist s.puts := recordings_sublist imei
  have horder := (run_chronicle hclock hrun).order.sublist hsub
  rw [List.Nodup, List.pairwise_map] at hseconds
  rw [List.pairwise_map]
  refine (horder.and hseconds).imp_of_mem fun {p q} hp hq ⟨hle, hne⟩ ↦ ?_
  have hpimei : p.seg.imei = imei := by simpa using (List.mem_filter.mp hp).2
  have hqimei : q.seg.imei = imei := by simpa using (List.mem_filter.mp hq).2
  have hlt : ⌊p.seg.startedAt⌋₊ < ⌊q.seg.startedAt⌋₊ :=
    lt_of_le_of_ne (Nat.floor_le_floor (hle (hpimei.trans hqimei.symm))) hne
  rw [Put.key, Put.key, hpimei, hqimei]
  exact Storage.keyFor_lt (hyear p (hsub.subset hp)) (hyear q (hsub.subset hq)) hlt _ _ _ _ _

theorem recording_fetched (hrun : run (step c) .init es = some s)
    (hpps : packetsPerSegment c < 2 ^ 32 - 2) {imei : Str}
    (hkeys : ((recordings c imei s).map Put.key).Nodup) {p : Put} (hp : p ∈ recordings c imei s) :
    (s.store.get p.key).bind packetsOf = some p.seg.packets := by
  have hbuilt := (run_refines hrun).1.built
  have hput := (recordings_sublist imei).subset hp
  have hget : s.store.get p.key = some p.data := by
    rw [run_holds hrun]
    have hmine : p.segment ∈ (succeeded c.stores 0 s.puts).map Put.segment :=
      List.mem_map_of_mem (List.mem_filter.mp hp).1
    change (Storage.stored _).get p.segment.key = some p.segment.data
    refine Storage.get_stored hmine fun seg hseg hkey ↦ ?_
    obtain ⟨q, hq, rfl⟩ := List.mem_map.mp hseg
    have hqput := (succeeded_sublist _ _ _).subset hq
    -- a key tells the device, so that only the device's own recordings matter
    have himei : q.seg.imei = p.seg.imei :=
      ((key_eq_iff (hbuilt q hqput) (hbuilt p hput)).mp hkey).1
    have hmem : q ∈ recordings c imei s :=
      List.mem_filter.mpr ⟨hq, by rw [himei]; exact (List.mem_filter.mp hp).2⟩
    rw [List.inj_on_of_nodup_map hkeys hmem hp hkey]
  obtain ⟨head, tags, -, -, hdemux⟩ := run_demux hrun hpps p hput
  rw [hget, Option.bind_some, packetsOf, hdemux]
  rfl

/-- What the listing of a device gives to a player: its recordings in order, each whole, the last of
them where there are more than the limit. -/
theorem played_recordings (store : Storage.SegmentStore) (honce : store.client.Once)
    (hclock : Monotone c.clock) (hyears : ∀ n, (Storage.gmtime (c.clock n)).date.year ≤ 9999)
    (hpps : packetsPerSegment c < 2 ^ 32 - 2) (hrun : run (step c) .init es = some s) {imei : Str}
    (hplants : ∀ p ∈ s.puts, ¬Storage.Plants imei p.segment)
    (hseconds : ((recordings c imei s).map fun p ↦ ⌊p.seg.startedAt⌋₊).Nodup) {limit : ℤ}
    (hlimit : 1 ≤ limit) :
    played store s.store imei limit =
      ((recordings c imei s).rtake limit.toNat).map fun p ↦ some p.seg.packets := by
  have hsorted := recordings_keys hclock hyears hrun hseconds
  have hunplanted : ∀ seg ∈ (succeeded c.stores 0 s.puts).map Put.segment,
      ¬Storage.Plants imei seg := by
    intro seg hseg
    obtain ⟨p, hp, rfl⟩ := List.mem_map.mp hseg
    exact hplants p ((succeeded_sublist _ _ _).subset hp)
  have hlisted := Storage.listed_keys store honce hunplanted hsorted (fun key ↦ by
    simp [recordings, Put.segment, Put.key, Storage.Segment.key, Storage.Ext.text,
      and_assoc]) hlimit
  rw [← run_holds hrun] at hlisted
  have hkeys : (Storage.listSegments store s.store imei none limit).reverse.map Storage.Item.key =
      ((recordings c imei s).rtake limit.toNat).map Put.key := by
    rw [List.map_reverse, hlisted, List.reverse_reverse, List.rtake, List.rtake,
      List.length_map, List.map_drop]
  rw [played, ← Function.comp_def (fun key ↦ (s.store.get key).bind packetsOf), ← List.map_map,
    hkeys, List.map_map]
  exact List.map_congr_left fun p hp ↦
    recording_fetched hrun hpps (hsorted.imp ne_of_lt) (List.mem_of_mem_drop hp)

end Playback

section Broadcast

variable {κ : Type} [DecidableEq κ] {part : Bytes → κ} {env : Server.Env}

/-- A player hears what was said. However ingest interleaves its connections and however the broker
spreads and hands over the audio it took, going through the listing of a device from its end gives
the Opus packets of that device's audio, recording after recording, or the last recordings where
there are more than the limit. -/
theorem playback_exact {maxConcurrent maxPerMinute : ℤ} {events : List Server.Event} {s : System}
    (hrun : run (System.step env) (.init maxConcurrent maxPerMinute) events = some s)
    (hsize : ∀ m ∈ s.ing.queue, m.topic = .audio →
      m.value.bytes.length ≤ 65024 + Protocol.rtpHeaderLen)
    (hfed : Fed part .audio s.ing.queue es) (hgoes : .interrupt ∉ es)
    (hpps : packetsPerSegment c < 2 ^ 32 - 2)
    {t : State} (ht : run (step c) .init (es ++ [.interrupt]) = some t)
    (hstores : ∀ n < t.puts.length, c.stores n = true) (hclock : Monotone c.clock)
    (hyears : ∀ n, (Storage.gmtime (c.clock n)).date.year ≤ 9999) {store : Storage.SegmentStore}
    (honce : store.client.Once) {id : Str} (hid : Ascii id)
    (hplants : ∀ p ∈ t.puts, ¬Storage.Plants id p.segment)
    (hseconds : ((recordings c id t).map fun p ↦ ⌊p.seg.startedAt⌋₊).Nodup) :
    ∃ recs : List (List Bytes), recs.flatten = (published id s.ing.queue).filterMap packetOf ∧
      ∀ limit : ℤ, 1 ≤ limit →
        played store t.store id limit = (recs.rtake limit.toNat).map some := by
  refine ⟨(recordings c id t).map fun p ↦ p.seg.packets, ?_, fun limit hlimit ↦ ?_⟩
  · obtain ⟨t', ht', -, hsent⟩ := run_recorded hrun hsize hfed hgoes hpps
    obtain rfl : t = t' := Option.some.inj (ht.symm.trans ht')
    rw [← hsent id hid, ← stored_all hstores, ← recordings_packets, List.flatMap_def]
  · rw [played_recordings store honce hclock hyears hpps ht hplants hseconds hlimit,
      List.rtake, List.rtake, List.length_map, ← List.map_drop, List.map_map]
    rfl

theorem playback_exact_overheard : ∃ s t,
    run (System.step (Server.Env.calm .disabled)) (.init 64 120) overheard = some s ∧
      run (step everyPacket) .init (replay .audio s.ing.queue ++ [.interrupt]) = some t ∧
      (recordings everyPacket (lit "A") t).length = 2 ∧
      ∃ recs : List (List Bytes),
        recs.flatten = (published (lit "A") s.ing.queue).filterMap packetOf ∧
        ∀ limit : ℤ, 1 ≤ limit →
          played ⟨.plain, 3600⟩ t.store (lit "A") limit = (recs.rtake limit.toNat).map some := by
  obtain ⟨s, hs, heq⟩ := overheard_runs
  obtain ⟨t, ht, hputs, hown⟩ := overheard_uploads heq
  have hplants : ∀ p ∈ t.puts, ¬Storage.Plants (lit "A") p.segment := by
    intro p hp
    have hmem : (p.seg.imei, p.seg.startedAt) ∈
        [(lit "unknown", 1700000001), (lit "A", 1700000005), (lit "A", 1700000007)] :=
      hputs ▸ List.mem_map_of_mem hp
    have himei : p.seg.imei = lit "unknown" ∨ p.seg.imei = lit "A" := by
      simp only [List.mem_cons, Prod.mk.injEq, List.not_mem_nil, or_false] at hmem
      tauto
    rcases himei with himei | himei
    · simp [Storage.Plants, Put.segment, himei, lit]
    · simp [Storage.Plants, Put.segment, himei, lit]
  have hseconds : ((recordings everyPacket (lit "A") t).map fun p ↦ ⌊p.seg.startedAt⌋₊).Nodup := by
    have hfloors := congrArg (List.map fun x : ℚ≥0 × Str ↦ ⌊x.1⌋₊) hown
    rw [List.map_map] at hfloors
    have htwo : ((recordings everyPacket (lit "A") t).map fun p ↦ ⌊p.seg.startedAt⌋₊) =
        [1700000005, 1700000007] := hfloors.trans (by simp)
    rw [htwo]
    decide
  have hyears : ∀ n, (Storage.gmtime (everyPacket.clock n)).date.year ≤ 9999 := by
    have hminute : ∀ k < 61, (Storage.gmtime (1700000000 + (k : ℕ))).date.year ≤ 9999 := by
      decide +kernel
    intro n
    exact hminute _ (by omega)
  have hclock : Monotone everyPacket.clock := by
    intro m n hmn
    have hmin : ((min m 60 : ℕ) : ℚ≥0) ≤ (min n 60 : ℕ) := Nat.cast_le.mpr (min_le_min_right 60 hmn)
    exact add_le_add_right hmin _
  have hlength := congrArg List.length hown
  rw [List.length_map] at hlength
  exact ⟨s, t, hs, ht, hlength,
    playback_exact hs (transcribed_small heq (by decide)) (fed_replay .audio s.ing.queue)
      (replay_goes _) (by decide) ht (fun _ _ ↦ rfl) hclock hyears Storage.plain_once (by decide)
    hplants hseconds⟩

end Broadcast

end Segmenter

end OpusFleet.Server
