import OpusFleet.Server.Endurance
import OpusFleet.Server.Outages
import OpusFleet.Server.Recency

namespace OpusFleet.Server

open Python Library

namespace Storage

/-- The device whose recording a key names: what stands before the date and the name. -/
def owner (key : Str) : Str := beforeLast 47 (beforeLast 47 key)

theorem owner_key (seg : Segment) : owner seg.key = seg.imei := by
  have hkey : seg.key = (seg.imei ++ 47 :: seg.date) ++ 47 :: seg.name := by simp [seg.key_eq]
  rw [owner, hkey, beforeLast_append seg.slash_notMem_name, beforeLast_append seg.slash_notMem_date]

theorem stored_entries {segs : List Segment} {imei : Str}
    (hkeys : ((segs.filter fun seg ↦ seg.imei = imei).map Segment.key).Nodup) :
    (stored segs).entries.filter (fun e ↦ owner e.1 = imei) =
      (segs.filter fun seg ↦ seg.imei = imei).map fun seg ↦ (seg.key, seg.data) := by
  induction segs using List.reverseRecOn with
  | nil => rfl
  | append_singleton segs seg ih =>
    have hput : (stored (segs ++ [seg])).entries =
        Assoc.set (stored segs).entries seg.key seg.data := by
      simp [stored, putSegment, Dict.set]
    rw [List.filter_append, List.map_append] at hkeys ⊢
    rw [hput, Assoc.filter_set (fun key ↦ owner key = imei), owner_key, ih hkeys.of_append_left]
    by_cases himei : seg.imei = imei
    · have hfresh : seg.key ∉ (segs.filter fun seg ↦ seg.imei = imei).map Segment.key := fun h ↦
        List.disjoint_of_nodup_append hkeys h (by simp [himei])
      rw [if_pos (by simpa using himei), Assoc.set_fresh (by simpa using hfresh)]
      simp [himei]
    · simp [himei]

theorem mem_of_stored {segs : List Segment} {key : Str} {data : Bytes}
    (h : (stored segs).get key = some data) :
    ∃ seg ∈ segs, seg.key = key ∧ seg.data = data := by
  induction segs using List.reverseRecOn with
  | nil => cases h
  | append_singleton segs seg ih =>
    have hput : stored (segs ++ [seg]) = putSegment (stored segs) seg := by simp [stored]
    rw [hput, putSegment, Dict.get_set] at h
    split at h
    · next hkey => exact ⟨seg, by simp, hkey.symm, Option.some.inj h⟩
    · obtain ⟨seg', hmem, hseg'⟩ := ih h
      exact ⟨seg', List.mem_append_left _ hmem, hseg'⟩

end Storage

namespace Segmenter

open Runs

variable {c : Env} {s s' : State} {e : Event} {es : List Event}

section Bucket

theorem stored_reset (imei : Str) : (s.reset c imei).store = s.store := rfl

/-- What the calls that succeeded leave in the bucket. -/
def Holds (c : Env) (s : State) : Prop :=
  s.store = Storage.stored ((succeeded c.stores 0 s.puts).map Put.segment)

theorem Holds.put (h : Holds c s) (p : Put) : Holds c ((s.upload c p).reset c p.seg.imei) := by
  rw [Holds, stored_reset, reset_puts, upload_puts, succeeded_append, Nat.zero_add,
    succeeded, State.upload]
  split
  · simp only [succeeded, List.map_append, Storage.stored, List.foldl_append]
    rw [Holds, Storage.stored] at h
    rw [← h]
    rfl
  · rw [succeeded, List.append_nil]
    exact h

theorem Flushes.holds {ps : List Put} (hps : Flushes c s ps s') (h : Holds c s) : Holds c s' := by
  induction hps with
  | nil => exact h
  | cons _ _ _ ih => exact ih (h.put _)

theorem run_holds (hrun : run (step c) .init es = some s) : Holds c s := by
  induction es using List.reverseRecOn generalizing s with
  | nil =>
    obtain rfl : State.init = s := by simpa using hrun
    rfl
  | append_singleton es e ih =>
    obtain ⟨m, hm, hstep⟩ := (run_concat _).mp hrun
    obtain ⟨ps, hround⟩ := step_round (run_refines hm).1.keyed hstep
    refine (hround.flushes.holds ?_ : Holds c { s with status := .running })
    rw [Holds, take_puts, take_store]
    exact ih hm

end Bucket

section Sizes

variable {c : Env} {s s' : State}

theorem Round.puts_le {e : Event} {ps : List Put} (h : Round c s e ps s') (hs : Intact c s) :
    ∀ p ∈ ps, (p.seg.packets.length : ℤ) ≤ max 1 (packetsPerSegment c) := by
  intro p hp
  have hlt := hs.pending_lt h.running p.seg.imei
  rcases take_get (h.flushes.mem p hp) with hget | ⟨opus, -, hseg⟩
  · rw [pending_of_get hget] at hlt
    exact hlt.le
  · have hlen := held_add_length (c := c) (s := s.tick) p.seg.imei opus
    have hpending : pending p.seg.imei s.tick = pending p.seg.imei s := rfl
    rw [← hseg, hpending] at hlen
    omega

theorem run_puts_le {es : List Event} (hrun : run (step c) .init es = some s) :
    ∀ p ∈ s.puts, (p.seg.packets.length : ℤ) ≤ max 1 (packetsPerSegment c) := by
  induction es using List.reverseRecOn generalizing s with
  | nil =>
    obtain rfl : State.init = s := by simpa using hrun
    simp [State.init]
  | append_singleton es e ih =>
    obtain ⟨m, hm, hstep⟩ := (run_concat _).mp hrun
    have hintact := (run_refines hm).1
    obtain ⟨ps, hround⟩ := step_round hintact.keyed hstep
    rw [hround.puts]
    exact List.forall_mem_append.mpr ⟨ih hm, hround.puts_le hintact⟩

/-- A demultiplexer finds in each object the packets of its segment. -/
theorem run_demux {es : List Event} (hrun : run (step c) .init es = some s)
    (hpps : packetsPerSegment c < 2 ^ 32 - 2) : ∀ p ∈ s.puts, ∃ head tags,
      OggOpus.opusHead Protocol.channels OggOpus.preSkip 48000 0 = .ok head ∧
      OggOpus.opusTags (ascii "opusfleet") = .ok tags ∧
      Ogg.demux OggOpus.oggCrc32 p.data = some (head :: tags :: p.seg.packets) := by
  intro p hp
  have hbuilt := (run_refines hrun).1.built p hp
  have hle := run_puts_le hrun p hp
  obtain ⟨pages, head, tags, hhead, htags, hvalid, hjoin, hmux⟩ :=
    OggOpus.mux_ok p.seg.serial hbuilt.1 (by omega) hbuilt.small
  have hdata := hmux.symm.trans hbuilt.2
  obtain ⟨hdata, -⟩ := Prod.mk.inj (Except.ok.inj hdata)
  refine ⟨head, tags, hhead, htags, ?_⟩
  rw [← hdata]
  exact Ogg.demux_encode OggOpus.oggCrc32_lt hvalid hjoin

end Sizes

section Objects

/-- The recordings of a device that were stored. -/
def recordings (c : Env) (imei : Str) (s : State) : List Put :=
  (succeeded c.stores 0 s.puts).filter fun p ↦ p.seg.imei = imei

/-- The Opus packets of an object, without the two headers. -/
def packetsOf (data : Bytes) : Option (List Bytes) :=
  (Ogg.demux OggOpus.oggCrc32 data).map (List.drop 2)

/-- What each object of a device in the bucket holds, in the order in which they were written. -/
def kept (bucket : Storage.Bucket) (imei : Str) : List (Option (List Bytes)) :=
  (bucket.entries.filter fun e ↦ Storage.owner e.1 = imei).map fun e ↦ packetsOf e.2

/-- The objects of the device hold these packets, object after object. -/
def Keeps (bucket : Storage.Bucket) (imei : Str) (packets : List Bytes) : Prop :=
  ∃ recs : List (List Bytes), kept bucket imei = recs.map some ∧ recs.flatten = packets

/-- No upload failed, and no two segments of the device went under one key. -/
structure Orderly (c : Env) (imei : Str) (s : State) : Prop where
  stores : ∀ n < s.puts.length, c.stores n = true
  keys : ((recordings c imei s).map Put.key).Nodup

theorem recordings_sublist (imei : Str) : (recordings c imei s).Sublist s.puts :=
  List.filter_sublist.trans (succeeded_sublist _ _ _)

theorem recordings_packets (imei : Str) :
    (recordings c imei s).flatMap (fun p ↦ p.seg.packets) = stored c imei s := by
  rw [stored, recordings]
  induction succeeded c.stores 0 s.puts with
  | nil => rfl
  | cons p ps ih =>
    by_cases himei : p.seg.imei = imei
    · simp [himei, ih]
    · simp [himei, ih]

theorem run_objects (hrun : run (step c) .init es = some s)
    (hpps : packetsPerSegment c < 2 ^ 32 - 2) {key : Str}
    {data : Bytes} (hget : s.store.get key = some data) : ∃ head tags packets,
      OggOpus.opusHead Protocol.channels OggOpus.preSkip 48000 0 = .ok head ∧
      OggOpus.opusTags (ascii "opusfleet") = .ok tags ∧
      Ogg.demux OggOpus.oggCrc32 data = some (head :: tags :: packets) := by
  rw [run_holds hrun] at hget
  obtain ⟨seg, hseg, -, rfl⟩ := Storage.mem_of_stored hget
  obtain ⟨p, hp, rfl⟩ := List.mem_map.mp hseg
  obtain ⟨head, tags, hhead, htags, hdemux⟩ :=
    run_demux hrun hpps p ((succeeded_sublist _ _ _).subset hp)
  exact ⟨head, tags, p.seg.packets, hhead, htags, hdemux⟩

theorem kept_recordings (hrun : run (step c) .init es = some s)
    (hpps : packetsPerSegment c < 2 ^ 32 - 2)
    {imei : Str} (hkeys : ((recordings c imei s).map Put.key).Nodup) :
    kept s.store imei = (recordings c imei s).map fun p ↦ some p.seg.packets := by
  have hmine : ((succeeded c.stores 0 s.puts).map Put.segment).filter (fun seg ↦ seg.imei = imei) =
      (recordings c imei s).map Put.segment := by
    rw [List.filter_map]
    rfl
  have hkeys' : (((recordings c imei s).map Put.segment).map Storage.Segment.key).Nodup := by
    rwa [List.map_map]
  rw [← hmine] at hkeys'
  rw [kept, run_holds hrun, Storage.stored_entries hkeys', hmine, List.map_map, List.map_map]
  refine List.map_congr_left fun p hp ↦ ?_
  obtain ⟨head, tags, -, -, hdemux⟩ := run_demux hrun hpps p ((recordings_sublist imei).subset hp)
  simp [packetsOf, Put.segment, hdemux]

/-- Where nothing goes wrong with the uploads, the objects of a device
hold what was sent to the store. -/
theorem keeps_sent (hrun : run (step c) .init es = some s)
    (hpps : packetsPerSegment c < 2 ^ 32 - 2) {imei : Str}
    (h : Orderly c imei s) : Keeps s.store imei (sent imei s) := by
  refine ⟨(recordings c imei s).map fun p ↦ p.seg.packets, ?_, ?_⟩
  · rw [kept_recordings hrun hpps h.keys, List.map_map]
    rfl
  · rw [← stored_all h.stores, ← recordings_packets, List.flatMap_def]

end Objects

end Segmenter

end OpusFleet.Server
