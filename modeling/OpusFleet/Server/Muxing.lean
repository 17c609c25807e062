import Mathlib.Algebra.Order.BigOperators.Group.List
import OpusFleet.Server.OggOpus

namespace OpusFleet.Server.OggOpus

open Python Library Library.Octets Protocol

section Crc

theorem crcRound_lt (r : ℕ) : crcRound r < 2 ^ 32 := by
  have hmask (n : ℕ) : n &&& 0xFFFFFFFF < 2 ^ 32 := Nat.and_lt_two_pow _ (by decide)
  rw [crcRound]
  split <;> exact hmask _

theorem makeCrcTable_lt (i : ℕ) : makeCrcTable.getD i 0 < 2 ^ 32 := by
  rw [makeCrcTable, List.getD_eq_getElem?_getD, List.getElem?_map]
  cases (List.range 256)[i]? with
  | none => decide
  | some j =>
    rw [Option.map_some, Option.getD_some, Function.iterate_succ_apply']
    exact crcRound_lt _

theorem oggCrc32_lt (data : Bytes) : oggCrc32 data < 2 ^ 32 := by
  rw [oggCrc32]
  induction data using List.reverseRecOn with
  | nil => decide
  | append_singleton data b _ =>
    rw [List.foldl_concat]
    exact Nat.xor_lt_two_pow (Nat.and_lt_two_pow _ (by decide)) (makeCrcTable_lt _)

end Crc

section Pages

theorem lace_eq_lacing (n : ℕ) : lace n = Ogg.lacing n := by
  induction n using Nat.strong_induction_on with
  | _ n ih =>
    rw [Ogg.lacing]
    split
    · next h => rw [lace, Nat.div_eq_of_lt h, Nat.mod_eq_of_lt h, List.replicate_zero,
        List.nil_append]
    · next h =>
      have hdiv : n / 255 = (n - 255) / 255 + 1 := by omega
      have hmod : n % 255 = (n - 255) % 255 := by omega
      rw [← ih (n - 255) (by omega), lace, lace, hdiv, hmod, List.replicate_succ, List.cons_append]

theorem lace_length (n : ℕ) : (lace n).length = n / 255 + 1 := by simp [lace]

def pageOf (serial seqno : ℕ) (granule : ℤ) (flags : ℕ) (segments : List ℕ) (payload : Bytes) :
    Ogg.Page :=
  ⟨flags, (granule % 2 ^ 64).toNat, serial, seqno, segments, payload⟩

variable {serial seqno : ℕ} {granule : ℤ} {flags : ℕ} {segments : List ℕ} {payload : Bytes}

theorem bytesOf_ok {values : List ℕ} (h : ∀ v ∈ values, v < 256) :
    bytesOf values = .ok (values.map UInt8.ofNat) := by
  rw [bytesOf, if_pos]
  simpa using h

theorem page_ok (hserial : serial < 2 ^ 32) (hseqno : seqno < 2 ^ 32)
    (hgranule : -2 ^ 63 ≤ granule ∧ granule < 2 ^ 63)
    (hvalid : (pageOf serial seqno granule flags segments payload).Valid) :
    page serial seqno granule flags segments payload =
      .ok ((pageOf serial seqno granule flags segments payload).encode oggCrc32) := by
  have hflags : flags < 256 := hvalid.flags
  have hlength : segments.length < 256 := hvalid.count
  have hstart : bytesOf [0, flags] = .ok ([0] ++ packLE 1 flags) :=
    bytesOf_ok (by simpa using hflags)
  have hcount : bytesOf [segments.length] = .ok (packLE 1 segments.length) :=
    bytesOf_ok (by simpa using hlength)
  have htable : bytesOf segments = .ok (segments.map UInt8.ofNat) := bytesOf_ok hvalid.table
  have hu32 {n : ℕ} (h : n < 2 ^ 32) : packU32 n = .ok (packLE 4 n) := if_pos h
  have hi64 : packI64 granule = .ok (packLE 8 (granule % 2 ^ 64).toNat) := if_pos hgranule
  have hheader (mid : Bytes) : oggCapture ++ ([0] ++ packLE 1 flags) ++
      packLE 8 (granule % 2 ^ 64).toNat ++ packLE 4 serial ++ packLE 4 seqno ++ mid ++
      packLE 1 segments.length ++ segments.map UInt8.ofNat ++ payload =
      (pageOf serial seqno granule flags segments payload).head ++
        (mid ++ (pageOf serial seqno granule flags segments payload).tail) := by
    simp only [pageOf, Ogg.Page.head, Ogg.Page.tail, List.append_assoc]
    rfl
  simp only [page, hstart, hi64, hu32 hserial, hu32 hseqno, hcount, htable, hu32 (oggCrc32_lt _),
    bind, Except.bind, pure, Except.pure]
  rw [hheader]
  rfl

theorem lace_table (packets : List Bytes) :
    (∀ s ∈ packets.flatMap fun p ↦ lace p.length, s < 256) ∧
      packets.flatten.length = (packets.flatMap fun p ↦ lace p.length).sum := by
  induction packets with
  | nil => simp
  | cons p packets ih =>
    obtain ⟨hle, hsum⟩ := ih
    simp only [List.flatMap_cons, List.flatten_cons, List.length_append, List.sum_append]
    constructor
    · intro s hs
      rcases List.mem_append.mp hs with hs | hs
      · rw [lace_eq_lacing] at hs
        exact Nat.lt_succ_of_le (Ogg.lacing_le _ s hs)
      · exact hle s hs
    · rw [hsum, lace_eq_lacing, Ogg.lacing_sum]

end Pages

section Writer

variable {headers : List Bytes} {pages : List Ogg.Page} {flushed : List Bytes} {w : OggOpusWriter}

/-- What the writer has put out, and what it holds back for the page being built. -/
structure Muxing (headers : List Bytes) (pages : List Ogg.Page) (flushed : List Bytes)
    (w : OggOpusWriter) : Prop where
  out : w.out = pages.flatMap (Ogg.Page.encode oggCrc32)
  valid : ∀ p ∈ pages, p.Valid
  join : Ogg.joinPages [] pages = (headers ++ flushed, [])
  segments : w.segments = w.packets.flatMap fun p ↦ lace p.length
  serial : w.serial < 2 ^ 32
  seqno : w.seqno = pages.length
  heads : headers.length ≤ 2
  few : pages.length ≤ headers.length + flushed.length
  samples : w.frameSamples = frameSamples
  granule : w.granule = frameSamples * (flushed ++ w.packets).length
  count : w.packetCount = (flushed ++ w.packets).length

theorem page_limits {n : ℕ} (hn : n < 2 ^ 32 - 2) {granule : ℤ} (hg : granule = frameSamples * n) :
    -2 ^ 63 ≤ granule ∧ granule < 2 ^ 63 := by
  simp only [hg, frameSamples]
  omega

theorem flush_ok (h : Muxing headers pages flushed w) (hne : w.packets ≠ [])
    (hroom : w.segments.length ≤ 255) (hlen : (flushed ++ w.packets).length < 2 ^ 32 - 2)
    (eos : Bool) :
    ∃ p w', w.flushPage eos = .ok w' ∧ Muxing headers (pages ++ [p]) (flushed ++ w.packets) w' ∧
      w'.packets = [] ∧ w'.packetCount = w.packetCount := by
  obtain ⟨htable, hsum⟩ := lace_table w.packets
  have hpos : 0 < w.packets.length := List.length_pos_of_ne_nil hne
  have hheads := h.heads
  have hfew := h.few
  have hseqno : w.seqno < 2 ^ 32 := by
    rw [h.seqno]
    rw [List.length_append] at hlen
    omega
  have hgranule := page_limits hlen h.granule
  generalize hflags : (if eos then flagEos else 0) = flags
  have hvalid : (pageOf w.serial w.seqno w.granule flags w.segments w.packets.flatten).Valid := by
    refine ⟨?_, ?_, h.serial, hseqno, Nat.lt_succ_of_le hroom, ?_, ?_⟩
    · have hbits : flags < 256 := by rw [← hflags]; cases eos <;> decide
      exact hbits
    · simp only [pageOf]
      omega
    · simpa only [pageOf, h.segments] using htable
    · simpa only [pageOf, h.segments] using hsum
  have hpage := page_ok h.serial hseqno hgranule hvalid
  have hjoin : Ogg.joinPages [] [pageOf w.serial w.seqno w.granule flags w.segments
      w.packets.flatten] = (w.packets, []) := by
    simp only [Ogg.joinPages, pageOf, h.segments, lace_eq_lacing, Ogg.joinLacing_packets,
      List.append_nil]
  generalize pageOf w.serial w.seqno w.granule flags w.segments w.packets.flatten = p
    at hpage hvalid hjoin
  refine ⟨p, { w with
    out := w.out ++ p.encode oggCrc32, seqno := w.seqno + 1, packets := [], segments := [] },
    ?_, ?_, rfl, rfl⟩
  · rw [OggOpusWriter.flushPage, if_neg hne, hflags, hpage]
    rfl
  refine ⟨?_, ?_, ?_, rfl, h.serial, ?_, hheads, ?_, h.samples, ?_, ?_⟩
  · simp only [h.out, List.flatMap_append, List.flatMap_singleton]
  · intro p hp
    rcases List.mem_append.mp hp with hp | hp
    · exact h.valid p hp
    · exact List.mem_singleton.mp hp ▸ hvalid
  · rw [← List.append_assoc]
    exact Ogg.joinPages_append h.join hjoin
  · simp [h.seqno]
  · simp only [List.length_append, List.length_singleton]
    omega
  · simpa using h.granule
  · simpa using h.count

theorem lace_room {n : ℕ} : (lace n).length ≤ 255 ↔ n ≤ 65024 := by
  rw [lace_length]
  omega

theorem room_ok (h : Muxing headers pages flushed w) (hroom : w.segments.length ≤ 255)
    (hlen : (flushed ++ w.packets).length < 2 ^ 32 - 2) (n : ℕ) :
    ∃ pages' flushed' w', w.makeRoom n = .ok w' ∧ Muxing headers pages' flushed' w' ∧
      flushed' ++ w'.packets = flushed ++ w.packets ∧
      (n ≤ 255 → w'.segments.length + n ≤ 255) := by
  rw [OggOpusWriter.makeRoom]
  by_cases hfull : maxSegments < w.segments.length + n
  · rw [if_pos hfull]
    by_cases hne : w.packets = []
    · have hseg : w.segments = [] := by rw [h.segments, hne, List.flatMap_nil]
      refine ⟨pages, flushed, w, ?_, h, rfl, ?_⟩
      · rw [OggOpusWriter.flushPage, if_pos hne]
        rfl
      · simp [hseg]
    · obtain ⟨p, w', hflush, h', hp, -⟩ := flush_ok h hne hroom hlen false
      refine ⟨_, _, w', hflush, h', by rw [hp, List.append_nil], ?_⟩
      simp [h'.segments, hp]
  · rw [if_neg hfull]
    refine ⟨pages, flushed, w, rfl, h, rfl, fun _ ↦ ?_⟩
    simpa [maxSegments] using hfull

theorem add_ok (h : Muxing headers pages flushed w) (hroom : w.segments.length ≤ 255)
    (hlen : (flushed ++ w.packets).length < 2 ^ 32 - 2) (packet : Bytes) :
    ∃ pages' flushed' w', w.addPacket packet = .ok w' ∧ Muxing headers pages' flushed' w' ∧
      flushed' ++ w'.packets = flushed ++ w.packets ++ [packet] ∧ w'.packets ≠ [] ∧
      (w'.segments.length ≤ 255 ↔ packet.length ≤ 65024) := by
  obtain ⟨pages', flushed', w', hw, h', hsame, hfits⟩ :=
    room_ok h hroom hlen (lace packet.length).length
  refine ⟨pages', flushed', { w' with
    granule := w'.granule + w'.frameSamples, packets := w'.packets ++ [packet],
    segments := w'.segments ++ lace packet.length, packetCount := w'.packetCount + 1 },
    ?_, ?_, ?_, ?_, ?_⟩
  · rw [OggOpusWriter.addPacket, hw]
    rfl
  · refine ⟨h'.out, h'.valid, h'.join, ?_, h'.serial, h'.seqno, h'.heads, h'.few,
      h'.samples, ?_, ?_⟩
    · simp [h'.segments]
    · simp only [h'.granule, h'.samples, List.length_append, List.length_singleton]
      push_cast
      ring
    · simp only [h'.count, List.length_append, List.length_singleton]
      omega
  · rw [← hsame, List.append_assoc]
  · simp
  · rw [← lace_room]
    simp only [List.length_append]
    constructor
    · intro hle
      omega
    · exact hfits

theorem adds_ok (packets : List Bytes) (h : Muxing headers pages flushed w)
    (hroom : w.segments.length ≤ 255) (hlen : (flushed ++ w.packets ++ packets).length < 2 ^ 32 - 2)
    (hsize : ∀ p ∈ packets, p.length ≤ 65024) :
    ∃ pages' flushed' w', packets.foldlM OggOpusWriter.addPacket w = .ok w' ∧
      Muxing headers pages' flushed' w' ∧ flushed' ++ w'.packets = flushed ++ w.packets ++ packets ∧
      w'.segments.length ≤ 255 ∧ (packets ≠ [] → w'.packets ≠ []) := by
  induction packets generalizing pages flushed w with
  | nil => exact ⟨pages, flushed, w, rfl, h, by simp, hroom, by simp⟩
  | cons p packets ih =>
    simp only [List.length_append, List.length_cons] at hlen
    obtain ⟨pages₁, flushed₁, w₁, hadd, h₁, hsame₁, hne₁, hroom₁⟩ :=
      add_ok h hroom (by rw [List.length_append]; omega) p
    obtain ⟨pages', flushed', w', hadds, h', hsame, hroom', hne'⟩ := ih h₁
      (hroom₁.mpr (hsize p (by simp)))
      (by rw [hsame₁]; simp only [List.length_append, List.length_singleton]; omega)
      fun q hq ↦ hsize q (by simp [hq])
    refine ⟨pages', flushed', w', ?_, h', ?_, hroom', fun _ ↦ ?_⟩
    · rw [List.foldlM_cons, hadd]
      exact hadds
    · rw [hsame, hsame₁, List.append_assoc _ [p], List.singleton_append]
    · cases packets with
      | nil =>
        obtain rfl : w₁ = w' := by simpa [List.foldlM_nil, pure, Except.pure] using hadds
        exact hne₁
      | cons q packets => exact hne' (by simp)

theorem emit_page (hserial : w.serial < 2 ^ 32) (hseqno : w.seqno < 2 ^ 32) {flags : ℕ}
    (hflags : flags < 256) {packet : Bytes} (hsize : packet.length ≤ 65024) :
    (pageOf w.serial w.seqno 0 flags (lace packet.length) packet).Valid ∧
    w.emit packet flags 0 = .ok { w with
      out := w.out ++ (pageOf w.serial w.seqno 0 flags (lace packet.length) packet).encode oggCrc32,
      seqno := w.seqno + 1 } := by
  obtain ⟨htable, hsum⟩ := lace_table [packet]
  simp only [List.flatMap_cons, List.flatMap_nil, List.append_nil, List.flatten_cons,
    List.flatten_nil] at htable hsum
  have hvalid : (pageOf w.serial w.seqno 0 flags (lace packet.length) packet).Valid :=
    ⟨hflags, Nat.two_pow_pos 64, hserial, hseqno,
      Nat.lt_succ_of_le (lace_room.mpr hsize), htable, hsum⟩
  refine ⟨hvalid, ?_⟩
  rw [OggOpusWriter.emit, page_ok hserial hseqno (by decide) hvalid]
  rfl

theorem emit_ok (h : Muxing headers pages [] w) (hw : w.packets = []) (hheads : headers.length < 2)
    {flags : ℕ} (hflags : flags < 256) {packet : Bytes} (hsize : packet.length ≤ 65024) :
    ∃ pages' w', w.emit packet flags 0 = .ok w' ∧ Muxing (headers ++ [packet]) pages' [] w' ∧
      w'.packets = [] := by
  have hfew := h.few
  have hseqno : w.seqno < 2 ^ 32 := by
    rw [h.seqno]
    simp only [List.length_nil] at hfew
    omega
  obtain ⟨hvalid, hemit⟩ := emit_page h.serial hseqno hflags hsize
  have hjoin : Ogg.joinPages [] [pageOf w.serial w.seqno 0 flags (lace packet.length) packet] =
      ([packet], []) := by
    have hpackets := Ogg.joinLacing_packets [packet]
    simp only [List.flatMap_cons, List.flatMap_nil, List.append_nil, List.flatten_cons,
      List.flatten_nil, ← lace_eq_lacing] at hpackets
    simp only [Ogg.joinPages, pageOf, hpackets, List.append_nil]
  generalize pageOf w.serial w.seqno 0 flags (lace packet.length) packet = p at hemit hvalid hjoin
  refine ⟨pages ++ [p], _, hemit, ?_, hw⟩
  have hheaders := Ogg.joinPages_append (by simpa only [List.append_nil] using h.join) hjoin
  refine ⟨?_, ?_, ?_, h.segments, h.serial, ?_, ?_, ?_, h.samples, h.granule, h.count⟩
  · simp only [h.out, List.flatMap_append, List.flatMap_singleton]
  · intro p hp
    rcases List.mem_append.mp hp with hp | hp
    · exact h.valid p hp
    · exact List.mem_singleton.mp hp ▸ hvalid
  · simpa only [List.append_nil] using hheaders
  · simp [h.seqno]
  · rw [List.length_append, List.length_singleton]
    omega
  · simp only [List.length_append, List.length_singleton]
    omega

theorem new_ok (serial : ℤ) :
    ∃ head tags pages w, opusHead channels preSkip 48000 0 = .ok head ∧
      opusTags (ascii "opusfleet") = .ok tags ∧
      OggOpusWriter.new serial channels frameSamples preSkip = .ok w ∧
      Muxing [head, tags] pages [] w ∧ w.packets = [] := by
  obtain ⟨head, hhead⟩ : ∃ head, opusHead channels preSkip 48000 0 = .ok head := ⟨_, rfl⟩
  obtain ⟨tags, htags⟩ : ∃ tags, opusTags (ascii "opusfleet") = .ok tags := ⟨_, rfl⟩
  have hheadsize : head.length ≤ 65024 := by
    obtain rfl := Except.ok.inj hhead
    decide
  have htagssize : tags.length ≤ 65024 := by
    obtain rfl := Except.ok.inj htags
    decide
  have hserial : (serial % 2 ^ 32).toNat < 2 ^ 32 := by omega
  obtain ⟨w₀, hw₀⟩ : ∃ w₀ : OggOpusWriter, w₀ = {
    serial := (serial % 2 ^ 32).toNat, channels := channels, frameSamples := frameSamples,
    preSkip := preSkip, out := [], seqno := 0, granule := 0, packets := [], segments := [],
    packetCount := 0 } := ⟨_, rfl⟩
  have hstart : Muxing [] [] [] w₀ := by
    rw [hw₀]
    exact ⟨rfl, by simp, rfl, rfl, hserial, rfl, by simp, by simp, rfl, by simp, rfl⟩
  obtain ⟨pages₁, w₁, hemit₁, h₁, hp₁⟩ :=
    emit_ok hstart (by rw [hw₀]) (by simp) (show flagBos < 256 by decide) hheadsize
  obtain ⟨pages₂, w₂, hemit₂, h₂, hp₂⟩ :=
    emit_ok h₁ hp₁ (by simp) (show 0 < 256 by decide) htagssize
  refine ⟨head, tags, pages₂, w₂, hhead, htags, ?_, h₂, hp₂⟩
  rw [OggOpusWriter.new, hhead, htags, ← hw₀]
  simp only [bind, Except.bind, hemit₁, hemit₂]

end Writer

section Stream

theorem mux_ok (serial : ℤ) {packets : List Bytes} (hne : packets ≠ [])
    (hlen : packets.length < 2 ^ 32 - 2) (hsize : ∀ p ∈ packets, p.length ≤ 65024) :
    ∃ pages head tags, opusHead channels preSkip 48000 0 = .ok head ∧
      opusTags (ascii "opusfleet") = .ok tags ∧ (∀ p ∈ pages, p.Valid) ∧
      Ogg.joinPages [] pages = (head :: tags :: packets, []) ∧
      mux serial channels frameSamples preSkip packets =
        .ok (pages.flatMap (Ogg.Page.encode oggCrc32),
          (packets.length * frameSamples / 48000 : ℚ)) := by
  obtain ⟨head, tags, pages₀, w₀, hhead, htags, hnew, h₀, hp₀⟩ := new_ok serial
  have hseg₀ : w₀.segments = [] := by rw [h₀.segments, hp₀, List.flatMap_nil]
  obtain ⟨pages₁, flushed, w₁, hadds, h₁, hsame, hroom, hne₁⟩ :=
    adds_ok packets h₀ (by rw [hseg₀]; exact Nat.zero_le _)
      (by rwa [hp₀, List.append_nil, List.nil_append]) hsize
  rw [hp₀, List.append_nil, List.nil_append] at hsame
  obtain ⟨p, w₂, hflush, h₂, hp₂, -⟩ := flush_ok h₁ (hne₁ hne) hroom (by rwa [hsame]) true
  rw [hsame] at h₂
  refine ⟨pages₁ ++ [p], head, tags, hhead, htags, h₂.valid, h₂.join, ?_⟩
  rw [mux, hnew]
  simp only [bind, Except.bind, pure, Except.pure, hadds, OggOpusWriter.finish, hflush, h₂.out,
    OggOpusWriter.durationS, h₂.count, h₂.samples, hp₂, List.append_nil, Int.cast_natCast]

theorem mux_inj {serial serial' : ℤ} {packets packets' : List Bytes} {data : Bytes} {d d' : ℚ}
    (hne : packets ≠ []) (hlen : packets.length < 2 ^ 32 - 2)
    (hsize : ∀ p ∈ packets, p.length ≤ 65024)
    (hne' : packets' ≠ []) (hlen' : packets'.length < 2 ^ 32 - 2)
    (hsize' : ∀ p ∈ packets', p.length ≤ 65024)
    (h : mux serial channels frameSamples preSkip packets = .ok (data, d))
    (h' : mux serial' channels frameSamples preSkip packets' = .ok (data, d')) :
    packets = packets' := by
  obtain ⟨pages, head, tags, -, -, hvalid, hjoin, hmux⟩ := mux_ok serial hne hlen hsize
  obtain ⟨pages', head', tags', -, -, hvalid', hjoin', hmux'⟩ := mux_ok serial' hne' hlen' hsize'
  have hdemux := Ogg.demux_encode oggCrc32_lt hvalid hjoin
  have hdemux' := Ogg.demux_encode oggCrc32_lt hvalid' hjoin'
  rw [hmux] at h
  rw [hmux'] at h'
  obtain ⟨rfl, -⟩ := Prod.mk.inj (Except.ok.inj h)
  obtain ⟨hdata, -⟩ := Prod.mk.inj (Except.ok.inj h')
  rw [hdata, hdemux] at hdemux'
  simp only [Option.some.injEq, List.cons.injEq] at hdemux'
  exact hdemux'.2.2

/-- A demultiplexer reads the stream of a segment back as its headers and its packets. -/
theorem demux_mux (serial : ℤ) (packets : List Bytes) (hne : packets ≠ [])
    (hlen : packets.length < 2 ^ 32 - 2) (hsize : ∀ p ∈ packets, p.length ≤ 65024) :
    ∃ data duration head tags,
      mux serial channels frameSamples preSkip packets = .ok (data, duration) ∧
      opusHead channels preSkip 48000 0 = .ok head ∧ opusTags (ascii "opusfleet") = .ok tags ∧
      Ogg.demux oggCrc32 data = some (head :: tags :: packets) := by
  obtain ⟨pages, head, tags, hhead, htags, hvalid, hjoin, hmux⟩ := mux_ok serial hne hlen hsize
  exact ⟨_, _, head, tags, hmux, hhead, htags, Ogg.demux_encode oggCrc32_lt hvalid hjoin⟩

theorem demux_mux_exact :
    ∃ data duration head tags, mux (-1) channels frameSamples preSkip
        [[], List.replicate 255 7, [1, 2]] = .ok (data, duration) ∧
      opusHead channels preSkip 48000 0 = .ok head ∧ opusTags (ascii "opusfleet") = .ok tags ∧
      Ogg.demux oggCrc32 data = some (head :: tags :: [[], List.replicate 255 7, [1, 2]]) :=
  demux_mux (-1) _ (List.cons_ne_nil _ _) (by decide) (by simp [-List.reduceReplicate])

end Stream

section Limits

variable {w w' w'' : OggOpusWriter}

theorem bind_inv {α β : Type} {x : Except Exc α} {f : α → Except Exc β} {b : β}
    (h : (x >>= f) = .ok b) :
    ∃ a, x = .ok a ∧ f a = .ok b := by
  cases x with
  | error e => simp [bind, Except.bind] at h
  | ok a => exact ⟨a, rfl, h⟩

theorem flush_counts {eos : Bool} (h : w.flushPage eos = .ok w') :
    w'.packetCount = w.packetCount ∧ w'.frameSamples = w.frameSamples := by
  rw [OggOpusWriter.flushPage] at h
  split at h
  · split at h
    · obtain ⟨out, -, h⟩ := bind_inv h
      obtain rfl := Except.ok.inj h
      exact ⟨rfl, rfl⟩
    · obtain rfl := Except.ok.inj h
      exact ⟨rfl, rfl⟩
  · obtain ⟨out, -, h⟩ := bind_inv h
    obtain rfl := Except.ok.inj h
    exact ⟨rfl, rfl⟩

theorem add_counts {packet : Bytes} (h : w.addPacket packet = .ok w') :
    w'.packetCount = w.packetCount + 1 ∧ w'.frameSamples = w.frameSamples := by
  obtain ⟨w₁, hroom, h⟩ := bind_inv h
  obtain rfl := Except.ok.inj h
  rw [OggOpusWriter.makeRoom] at hroom
  split at hroom
  · obtain ⟨hcount, hsamples⟩ := flush_counts hroom
    exact ⟨congrArg (· + 1) hcount, hsamples⟩
  · obtain rfl := Except.ok.inj hroom
    exact ⟨rfl, rfl⟩

theorem page_inv {serial seqno : ℕ} {granule : ℤ} {flags : ℕ} {segments : List ℕ}
    {payload out : Bytes} (h : page serial seqno granule flags segments payload = .ok out) :
    seqno < 2 ^ 32 ∧ segments.length ≤ 255 := by
  rw [page] at h
  obtain ⟨start, -, h⟩ := bind_inv h
  obtain ⟨granule', -, h⟩ := bind_inv h
  obtain ⟨serial', -, h⟩ := bind_inv h
  obtain ⟨seqno', hseqno, h⟩ := bind_inv h
  obtain ⟨count, hcount, -⟩ := bind_inv h
  constructor
  · by_contra hlt
    rw [packU32, if_neg hlt] at hseqno
    cases hseqno
  · by_contra hlt
    have hlong : ¬[segments.length].all (· < 256) = true := by
      simp only [List.all_cons, List.all_nil, Bool.and_true, decide_eq_true_eq]
      omega
    rw [bytesOf, if_neg hlong] at hcount
    cases hcount

theorem flush_inv {eos : Bool} (hne : w.packets ≠ []) (h : w.flushPage eos = .ok w') :
    w.seqno < 2 ^ 32 ∧ w.segments.length ≤ 255 ∧ w'.seqno = w.seqno + 1 ∧ w'.segments = [] := by
  rw [OggOpusWriter.flushPage, if_neg hne] at h
  obtain ⟨out, hpage, h⟩ := bind_inv h
  obtain ⟨hseqno, hcount⟩ := page_inv hpage
  obtain rfl := Except.ok.inj h
  exact ⟨hseqno, hcount, rfl, rfl⟩

theorem add_inv {packet : Bytes} (h : w.addPacket packet = .ok w') :
    ∃ w₁, w.makeRoom (lace packet.length).length = .ok w₁ ∧ w'.seqno = w₁.seqno ∧
      w'.segments = w₁.segments ++ lace packet.length ∧ w'.packets ≠ [] := by
  obtain ⟨w₁, hroom, h⟩ := bind_inv h
  obtain rfl := Except.ok.inj h
  exact ⟨w₁, hroom, rfl, rfl, by simp⟩

theorem add_full_inv {packet : Bytes} (hne : w.packets ≠ []) (hfull : 255 ≤ w.segments.length)
    (h : w.addPacket packet = .ok w') :
    w.seqno < 2 ^ 32 ∧ w.segments.length ≤ 255 ∧ w'.seqno = w.seqno + 1 ∧ w'.packets ≠ [] ∧
      w'.segments = lace packet.length := by
  obtain ⟨w₁, hroom, hseqno, hsegments, hne'⟩ := add_inv h
  have hlong : maxSegments < w.segments.length + (lace packet.length).length := by
    rw [lace_length, maxSegments]
    omega
  rw [OggOpusWriter.makeRoom, if_pos hlong] at hroom
  obtain ⟨hlt, hle, hseqno₁, hsegments₁⟩ := flush_inv hne hroom
  rw [hsegments₁, List.nil_append] at hsegments
  exact ⟨hlt, hle, hseqno.trans hseqno₁, hne', hsegments⟩

theorem adds_cons_inv {p : Bytes} {packets : List Bytes}
    (h : (p :: packets).foldlM OggOpusWriter.addPacket w = .ok w') :
    ∃ w₁, w.addPacket p = .ok w₁ ∧ packets.foldlM OggOpusWriter.addPacket w₁ = .ok w' := by
  rw [List.foldlM_cons] at h
  exact bind_inv h

theorem clogged {packets : List Bytes} (hne : w.packets ≠ []) (hlong : 255 < w.segments.length)
    (hadds : packets.foldlM OggOpusWriter.addPacket w = .ok w') : w'.flushPage true ≠ .ok w'' := by
  intro hflush
  cases packets with
  | nil =>
    obtain rfl : w = w' := Except.ok.inj hadds
    obtain ⟨-, hle, -⟩ := flush_inv hne hflush
    omega
  | cons p packets =>
    obtain ⟨w₁, hadd, -⟩ := adds_cons_inv hadds
    obtain ⟨-, hle, -⟩ := add_full_inv hne hlong.le hadd
    omega

theorem small_of_written {packets : List Bytes}
    (hadds : packets.foldlM OggOpusWriter.addPacket w = .ok w')
    (hflush : w'.flushPage true = .ok w'') : ∀ p ∈ packets, p.length ≤ 65024 := by
  induction packets generalizing w with
  | nil => simp
  | cons p packets ih =>
    obtain ⟨w₁, hadd, hadds₁⟩ := adds_cons_inv hadds
    intro q hq
    rcases List.mem_cons.mp hq with rfl | hq
    · by_contra hlarge
      obtain ⟨w₀, -, -, hsegments, hne⟩ := add_inv hadd
      apply clogged hne ?_ hadds₁ hflush
      have hlace : 255 < (lace q.length).length := not_le.mp fun h ↦ hlarge (lace_room.mp h)
      rw [hsegments, List.length_append]
      omega
    · exact ih hadds₁ q hq

theorem few_of_written {packets : List Bytes} (hne : w.packets ≠ [])
    (hfull : 255 ≤ w.segments.length) (hlarge : ∀ p ∈ packets, 64770 ≤ p.length)
    (hadds : packets.foldlM OggOpusWriter.addPacket w = .ok w')
    (hflush : w'.flushPage true = .ok w'') :
    w.seqno + packets.length < 2 ^ 32 := by
  induction packets generalizing w with
  | nil =>
    obtain rfl : w = w' := Except.ok.inj hadds
    exact (flush_inv hne hflush).1
  | cons p packets ih =>
    obtain ⟨w₁, hadd, hadds₁⟩ := adds_cons_inv hadds
    obtain ⟨-, -, hseqno, hne₁, hsegments⟩ := add_full_inv hne hfull hadd
    have hfull₁ : 255 ≤ w₁.segments.length := by
      have hp := hlarge p (by simp)
      rw [hsegments, lace_length]
      omega
    have h := ih hne₁ hfull₁ (fun q hq ↦ hlarge q (by simp [hq])) hadds₁
    rw [List.length_cons]
    omega

theorem adds_counts {packets : List Bytes} (h : packets.foldlM OggOpusWriter.addPacket w = .ok w') :
    w'.packetCount = w.packetCount + packets.length ∧ w'.frameSamples = w.frameSamples := by
  induction packets generalizing w with
  | nil =>
    obtain rfl : w = w' := Except.ok.inj h
    exact ⟨rfl, rfl⟩
  | cons p packets ih =>
    obtain ⟨w₁, hadd, hadds⟩ := adds_cons_inv h
    obtain ⟨hcount, hsamples⟩ := ih hadds
    obtain ⟨hcount₁, hsamples₁⟩ := add_counts hadd
    refine ⟨?_, hsamples.trans hsamples₁⟩
    rw [hcount, hcount₁, List.length_cons]
    omega

theorem mux_duration {serial : ℤ} {packets : List Bytes} {data : Bytes} {duration : ℚ}
    (h : mux serial channels frameSamples preSkip packets = .ok (data, duration)) :
    duration = packets.length * frameSamples / 48000 := by
  obtain ⟨head, tags, pages, w, -, -, hnew, hw, hp⟩ := new_ok serial
  obtain ⟨w₀, hnew₀, h⟩ := bind_inv h
  obtain rfl : w = w₀ := Except.ok.inj (hnew.symm.trans hnew₀)
  obtain ⟨w', hadds, h⟩ := bind_inv h
  obtain ⟨⟨w'', out⟩, hfinish, h⟩ := bind_inv h
  obtain ⟨w₁, hflush, hout⟩ := bind_inv hfinish
  obtain ⟨rfl, -⟩ := Prod.mk.inj (Except.ok.inj hout)
  obtain ⟨-, rfl⟩ := Prod.mk.inj (Except.ok.inj h)
  obtain ⟨hcount, hsamples⟩ := adds_counts hadds
  obtain ⟨hcount', hsamples'⟩ := flush_counts hflush
  have hzero := hw.count
  rw [hp] at hzero
  rw [OggOpusWriter.durationS, hcount', hsamples', hcount, hsamples, hzero, hw.samples]
  simp

theorem mux_inv {serial : ℤ} {packets : List Bytes} {r : Bytes × ℚ}
    (h : mux serial channels frameSamples preSkip packets = .ok r) :
    ∃ w w' w'', packets.foldlM OggOpusWriter.addPacket w = .ok w' ∧
      w'.flushPage true = .ok w'' := by
  obtain ⟨w, -, h⟩ := bind_inv h
  obtain ⟨w', hadds, h⟩ := bind_inv h
  obtain ⟨⟨w'', data⟩, hfinish, -⟩ := bind_inv h
  obtain ⟨w₁, hflush, -⟩ := bind_inv hfinish
  exact ⟨w, w', w₁, hadds, hflush⟩

end Limits

section Total

theorem mux_nil (serial : ℤ) : ∃ r, mux serial channels frameSamples preSkip [] = .ok r := by
  obtain ⟨head, tags, pages, w, -, -, hnew, h, hp⟩ := new_ok serial
  have hheads := h.heads
  have hfew := h.few
  have hgranule : w.granule = 0 := by simpa [hp] using h.granule
  have hseqno : w.seqno < 2 ^ 32 := by
    simp only [List.length_nil] at hfew
    rw [h.seqno]
    omega
  have hvalid : (pageOf w.serial w.seqno w.granule flagEos [0] []).Valid := by
    refine ⟨show flagEos < 256 by decide, ?_, h.serial, hseqno, show 1 < 256 by decide,
      by simp [pageOf],
      rfl⟩
    rw [hgranule]
    exact Nat.two_pow_pos 64
  have hpage := page_ok h.serial hseqno (by rw [hgranule]; decide) hvalid
  rw [mux, hnew]
  simp only [bind, Except.bind, pure, Except.pure, List.foldlM_nil, OggOpusWriter.finish,
    OggOpusWriter.flushPage, hp, if_true, hpage]
  exact ⟨_, rfl⟩

/-- The writer takes a list of packets and finishes exactly if each
fits the segment table of a page. -/
theorem mux_total_iff (serial : ℤ) {packets : List Bytes} (hlen : packets.length < 2 ^ 32 - 2) :
    (∃ r, mux serial channels frameSamples preSkip packets = .ok r) ↔
      ∀ p ∈ packets, p.length ≤ 65024 := by
  constructor
  · rintro ⟨r, h⟩
    obtain ⟨w, w', w'', hadds, hflush⟩ := mux_inv h
    exact small_of_written hadds hflush
  · intro hsize
    by_cases hne : packets = []
    · subst hne
      exact mux_nil serial
    · obtain ⟨_, _, _, -, -, -, -, hmux⟩ := mux_ok serial hne hlen hsize
      exact ⟨_, hmux⟩

/-- Packets that need a page each run out of page numbers. -/
theorem mux_overflows (serial : ℤ) {packets : List Bytes} (hlen : 2 ^ 32 < packets.length)
    (hlarge : ∀ p ∈ packets, 64770 ≤ p.length) (r : Bytes × ℚ) :
    mux serial channels frameSamples preSkip packets ≠ .ok r := by
  intro h
  obtain ⟨w, w', w'', hadds, hflush⟩ := mux_inv h
  cases packets with
  | nil => simp at hlen
  | cons p packets =>
    obtain ⟨w₁, hadd, hadds₁⟩ := adds_cons_inv hadds
    obtain ⟨w₀, -, -, hsegments, hne⟩ := add_inv hadd
    have hfull : 255 ≤ w₁.segments.length := by
      have hp := hlarge p (by simp)
      rw [hsegments, List.length_append, lace_length]
      omega
    have hfew := few_of_written hne hfull (fun q hq ↦ hlarge q (by simp [hq])) hadds₁ hflush
    rw [List.length_cons] at hlen
    omega

end Total

end OpusFleet.Server.OggOpus
