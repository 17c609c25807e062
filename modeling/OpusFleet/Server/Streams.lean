import Mathlib.Algebra.Order.Monoid.Unbundled.Basic
import OpusFleet.Server.Muxing

namespace OpusFleet.Server.OggOpus

open Python Library Library.Octets Protocol

def flagContinued : ℕ := 0x01

/-- The segment table of a page with the packets `body`. A page without packets closes a stream that
has none, and its table has an entry all the same. -/
def table (body : List Bytes) : List ℕ :=
  if body = [] then [0] else body.flatMap fun p ↦ lace p.length

section Layout

variable (serial : ℕ) (samples : ℤ)

/-- Page number `k`, which `body` fills after `n` packets on the pages before. -/
def bodyPage (flags k n : ℕ) (body : List Bytes) : Ogg.Page :=
  pageOf serial k (samples * (n + body.length : ℕ)) flags (table body) body.flatten

/-- The audio pages from number `k` on, the last of which may end the stream. -/
def layout (eos : Bool) : ℕ → ℕ → List (List Bytes) → List Ogg.Page
  | _, _, [] => []
  | k, n, body :: rest =>
    bodyPage serial samples (if eos ∧ rest = [] then flagEos else 0) k n body ::
      layout eos (k + 1) (n + body.length) rest

variable {serial samples}

theorem layout_snoc (eos : Bool) (k n : ℕ) (bodies : List (List Bytes)) (body : List Bytes) :
    layout serial samples eos k n (bodies ++ [body]) = layout serial samples false k n bodies ++
      [bodyPage serial samples (if eos then flagEos else 0) (k + bodies.length)
        (n + bodies.flatten.length) body] := by
  induction bodies generalizing k n with
  | nil => simp [layout]
  | cons b bodies ih =>
    have hk : k + 1 + bodies.length = k + (bodies.length + 1) := by omega
    simp [layout, ih, hk, Nat.add_assoc]

theorem layout_get (eos : Bool) (k n i : ℕ) (bodies : List (List Bytes)) :
    (layout serial samples eos k n bodies)[i]? = bodies[i]?.map fun body ↦
      bodyPage serial samples (if eos ∧ i + 1 = bodies.length then flagEos else 0) (k + i)
        (n + (bodies.take i).flatten.length) body := by
  induction bodies generalizing k n i with
  | nil => simp [layout]
  | cons b bodies ih =>
    cases i with
    | zero => simp [layout]
    | succ i =>
      have hk : k + 1 + i = k + (i + 1) := by omega
      have hn : n + b.length + (bodies.take i).flatten.length =
          n + ((b :: bodies).take (i + 1)).flatten.length := by
        rw [List.take_succ_cons, List.flatten_cons, List.length_append]
        omega
      rw [layout, List.getElem?_cons_succ, ih, List.getElem?_cons_succ, hk, hn]
      simp

theorem layout_seqno (eos : Bool) (k n : ℕ) (bodies : List (List Bytes)) :
    (layout serial samples eos k n bodies).map Ogg.Page.seqno = List.range' k bodies.length := by
  induction bodies generalizing k n with
  | nil => rfl
  | cons b bodies ih => rw [layout, List.map_cons, ih, List.length_cons, List.range'_succ]; rfl

theorem layout_length (eos : Bool) (k n : ℕ) (bodies : List (List Bytes)) :
    (layout serial samples eos k n bodies).length = bodies.length := by
  rw [← List.length_map (f := Ogg.Page.seqno), layout_seqno, List.length_range']

theorem table_last (body : List Bytes) : ∃ s, (table body).getLast? = some s ∧ s < 255 := by
  rw [table]
  split
  · exact ⟨0, rfl, by decide⟩
  · next hne =>
    obtain ⟨init, p, rfl⟩ := List.eq_nil_or_concat body |>.resolve_left hne
    refine ⟨p.length % 255, ?_, Nat.mod_lt _ (by decide)⟩
    simp [lace]

end Layout

/-- A valid Ogg Opus stream with the audio `packets`. -/
structure Stream (serial : ℕ) (samples : ℤ) (head tags : Bytes) (packets : List Bytes)
    (pages : List Ogg.Page) : Prop where
  seqno : pages.map Ogg.Page.seqno = List.range pages.length
  serial : ∀ p ∈ pages, p.serial = serial
  bos : ∀ k p, pages[k]? = some p → (p.flags &&& flagBos ≠ 0 ↔ k = 0)
  eos : ∀ k p, pages[k]? = some p → (p.flags &&& flagEos ≠ 0 ↔ k + 1 = pages.length)
  continued : ∀ p ∈ pages, p.flags &&& flagContinued = 0
  head : ∃ p, pages[0]? = some p ∧ p.payload = head ∧ p.segments = lace head.length ∧ p.granule = 0
  tags : ∃ p, pages[1]? = some p ∧ p.payload = tags ∧ p.segments = lace tags.length ∧ p.granule = 0
  table : ∀ p ∈ pages, 1 ≤ p.segments.length ∧ p.segments.length ≤ 255 ∧
    p.segments.sum = p.payload.length ∧ ∃ s, p.segments.getLast? = some s ∧ s < 255
  audio : ∃ bodies : List (List Bytes), bodies.flatten = packets ∧
    pages.length = bodies.length + 2 ∧
    ∀ k body, bodies[k]? = some body → ∃ p, pages[k + 2]? = some p ∧ p.payload = body.flatten ∧
      p.segments = OggOpus.table body ∧ (p.granule : ℤ) =
      samples * (bodies.take (k + 1)).flatten.length
  rising : (pages.map Ogg.Page.granule).Pairwise (· ≤ ·)
  last : ∃ p, pages.getLast? = some p ∧ (p.granule : ℤ) = samples * packets.length

section Pages

variable {serial : ℕ} {samples : ℤ} {head tags : Bytes}

def headers (serial : ℕ) (head tags : Bytes) : List Ogg.Page :=
  [pageOf serial 0 0 flagBos (lace head.length) head, pageOf serial 1 0 0 (lace tags.length) tags]

theorem pageOf_granule {serial seqno flags : ℕ} {granule : ℤ} {segments : List ℕ} {payload : Bytes}
    (hpos : 0 ≤ granule) (hlt : granule < 2 ^ 63) :
    ((pageOf serial seqno granule flags segments payload).granule : ℤ) = granule := by
  simp only [pageOf]
  omega

theorem flatten_take_le {α : Type} (bodies : List (List α)) (k : ℕ) :
    (bodies.take k).flatten.length ≤ bodies.flatten.length := by
  conv_rhs => rw [← List.take_append_drop k bodies, List.flatten_append, List.length_append]
  exact Nat.le_add_right _ _

variable {bodies : List (List Bytes)}

theorem take_count {k : ℕ} {body : List Bytes} (h : bodies[k]? = some body) :
    (bodies.take k).flatten.length + body.length = (bodies.take (k + 1)).flatten.length := by
  rw [List.take_add_one, h, List.flatten_append, List.length_append]
  simp

/-- Every page of a stream: its flags, its table, and a granule position
that counts the packets so far. -/
theorem pages_get (hpos : 0 < samples) (hne : bodies ≠ [])
    (htotal : samples * bodies.flatten.length < 2 ^ 63) {k : ℕ} {p : Ogg.Page}
    (h : (headers serial head tags ++ layout serial samples true 2 0 bodies)[k]? = some p) :
    p.serial = serial ∧ (∃ s, p.segments.getLast? = some s ∧ s < 255) ∧
      p.flags = (if k = 0 then flagBos else if k + 1 = bodies.length + 2 then flagEos else 0) ∧
      (p.granule : ℤ) = samples * (bodies.take (k - 1)).flatten.length := by
  have hlace (n : ℕ) : ∃ s, (lace n).getLast? = some s ∧ s < 255 :=
    ⟨n % 255, by simp [lace], Nat.mod_lt _ (by decide)⟩
  rcases k with _ | _ | k
  · obtain rfl : pageOf serial 0 0 flagBos (lace head.length) head = p := by simpa [headers] using h
    exact ⟨rfl, hlace _, rfl, by simp [pageOf]⟩
  · obtain rfl : pageOf serial 1 0 0 (lace tags.length) tags = p := by simpa [headers] using h
    have hlen : 2 ≠ bodies.length + 2 := by
      have hlen := List.length_pos_of_ne_nil hne
      omega
    exact ⟨rfl, hlace _, (if_neg hlen).symm, by simp [pageOf]⟩
  · have hget : (layout serial samples true 2 0 bodies)[k]? = some p := by simpa [headers] using h
    rw [layout_get] at hget
    obtain ⟨body, hbody, rfl⟩ := Option.map_eq_some_iff.mp hget
    have hcount : 0 + (bodies.take k).flatten.length + body.length =
        (bodies.take (k + 1)).flatten.length := by
      rw [Nat.zero_add, take_count hbody]
    have hle : samples * (bodies.take (k + 1)).flatten.length ≤
        samples * bodies.flatten.length := by
      apply mul_le_mul_of_nonneg_left _ hpos.le
      exact_mod_cast flatten_take_le bodies (k + 1)
    refine ⟨rfl, table_last body, ?_, ?_⟩
    · simp [bodyPage, pageOf]
    · rw [bodyPage, hcount]
      exact pageOf_granule (by positivity) (hle.trans_lt htotal)

variable (serial samples head tags bodies) in
theorem pages_length :
    (headers serial head tags ++ layout serial samples true 2 0 bodies).length =
      bodies.length + 2 := by
  rw [List.length_append, layout_length, Nat.add_comm]
  rfl

section Fields

variable (hpos : 0 < samples) (hne : bodies ≠ [])
    (htotal : samples * bodies.flatten.length < 2 ^ 63) {k : ℕ}
  {p : Ogg.Page} (h : (headers serial head tags ++ layout serial samples true 2 0 bodies)[k]? =
    some p)

include hpos hne htotal h

theorem pages_bos : p.flags &&& flagBos ≠ 0 ↔ k = 0 := by
  rw [(pages_get hpos hne htotal h).2.2.1]
  split
  · simp [*, flagBos]
  · split <;> simp [*, flagBos, flagEos]

theorem pages_eos : p.flags &&& flagEos ≠ 0 ↔ k + 1 = bodies.length + 2 := by
  rw [(pages_get hpos hne htotal h).2.2.1]
  split
  · simp [*, flagBos, flagEos]
  · by_cases hlast : k + 1 = bodies.length + 2
    · rw [if_pos hlast]
      exact iff_of_true (by decide) hlast
    · rw [if_neg hlast]
      exact iff_of_false (by decide) hlast

theorem pages_continued : p.flags &&& flagContinued = 0 := by
  rw [(pages_get hpos hne htotal h).2.2.1]
  split
  · decide
  · split <;> decide

theorem pages_table (hvalid : p.Valid) : 1 ≤ p.segments.length ∧ p.segments.length ≤ 255 ∧
    p.segments.sum = p.payload.length ∧ ∃ s, p.segments.getLast? = some s ∧ s < 255 := by
  obtain ⟨s, hs, hlt⟩ := (pages_get hpos hne htotal h).2.1
  have hfull : p.segments ≠ [] := by
    rintro hnil
    rw [hnil] at hs
    cases hs
  exact ⟨List.length_pos_of_ne_nil hfull, Nat.le_of_lt_succ hvalid.count,
    hvalid.payload.symm, s, hs, hlt⟩

theorem pages_rising {k' : ℕ} {p' : Ogg.Page} (hk : k ≤ k')
    (h' : (headers serial head tags ++ layout serial samples true 2 0 bodies)[k']? = some p') :
    p.granule ≤ p'.granule := by
  have hle : (bodies.take (k - 1)).flatten.length ≤ (bodies.take (k' - 1)).flatten.length := by
    have htake : (bodies.take (k' - 1)).take (k - 1) = bodies.take (k - 1) := by
      rw [List.take_take, min_eq_left (Nat.sub_le_sub_right hk 1)]
    rw [← htake]
    exact flatten_take_le _ _
  zify
  rw [(pages_get hpos hne htotal h).2.2.2, (pages_get hpos hne htotal h').2.2.2]
  apply mul_le_mul_of_nonneg_left _ hpos.le
  exact_mod_cast hle

end Fields

theorem stream_of_layout (hpos : 0 < samples) (hne : bodies ≠ [])
    (htotal : samples * bodies.flatten.length < 2 ^ 63)
    (hvalid : ∀ p ∈ headers serial head tags ++ layout serial samples true 2 0 bodies, p.Valid) :
    Stream serial samples head tags bodies.flatten
      (headers serial head tags ++ layout serial samples true 2 0 bodies) where
  seqno := by
    rw [pages_length, List.map_append, layout_seqno, List.range_eq_range', Nat.add_comm]
    exact List.range'_append_1 (s := 0) (m := 2)
  serial := by
    intro p hp
    obtain ⟨k, hk⟩ := List.mem_iff_getElem?.mp hp
    exact (pages_get hpos hne htotal hk).1
  bos := fun _ _ hk ↦ pages_bos hpos hne htotal hk
  eos := by
    rw [pages_length]
    exact fun _ _ hk ↦ pages_eos hpos hne htotal hk
  continued := by
    intro p hp
    obtain ⟨k, hk⟩ := List.mem_iff_getElem?.mp hp
    exact pages_continued hpos hne htotal hk
  head := ⟨_, rfl, rfl, rfl, rfl⟩
  tags := ⟨_, rfl, rfl, rfl, rfl⟩
  table := by
    intro p hp
    obtain ⟨k, hk⟩ := List.mem_iff_getElem?.mp hp
    exact pages_table hpos hne htotal hk (hvalid p hp)
  audio := by
    refine ⟨bodies, rfl, pages_length serial samples head tags bodies, fun k body hk ↦ ?_⟩
    have hpage : (headers serial head tags ++ layout serial samples true 2 0 bodies)[k + 2]? =
        some _ :=
      (layout_get true 2 0 k bodies).trans (congrArg _ hk)
    exact ⟨_, hpage, rfl, rfl, (pages_get hpos hne htotal hpage).2.2.2⟩
  rising := by
    rw [List.pairwise_map, List.pairwise_iff_getElem]
    intro j k hj hk hjk
    exact pages_rising hpos hne htotal (List.getElem?_eq_getElem hj) hjk.le
      (List.getElem?_eq_getElem hk)
  last := by
    have hlength := pages_length serial samples head tags bodies
    obtain ⟨p, hp⟩ : ∃ p, (headers serial head tags ++
      layout serial samples true 2 0 bodies)[bodies.length + 1]? =
        some p := ⟨_, List.getElem?_eq_getElem (by rw [hlength]; exact Nat.lt_succ_self _)⟩
    have hgranule := (pages_get hpos hne htotal hp).2.2.2
    rw [Nat.add_sub_cancel, List.take_length] at hgranule
    rw [List.getLast?_eq_getElem?, hlength]
    exact ⟨p, hp, hgranule⟩

end Pages

section Writer

variable {serial : ℕ} {samples : ℤ} {head tags : Bytes} {bodies : List (List Bytes)}
    {w : OggOpusWriter}

/-- What the writer has put out are the headers and a page for each of `bodies`, and its fields
say how the next page goes on. -/
structure Written (serial : ℕ) (samples : ℤ) (head tags : Bytes) (bodies : List (List Bytes))
    (w : OggOpusWriter) : Prop where
  out : w.out = (headers serial head tags ++ layout serial samples false 2 0 bodies).flatMap
    (Ogg.Page.encode oggCrc32)
  valid : ∀ p ∈ headers serial head tags ++ layout serial samples false 2 0 bodies, p.Valid
  filled : ∀ body ∈ bodies, body ≠ []
  segments : w.segments = w.packets.flatMap fun p ↦ lace p.length
  room : w.segments.length ≤ 255
  seqno : w.seqno = 2 + bodies.length
  granule : w.granule = samples * (bodies.flatten.length + w.packets.length : ℕ)
  count : w.packetCount = bodies.flatten.length + w.packets.length
  serial : w.serial = serial
  samples : w.frameSamples = samples

theorem table_sum (body : List Bytes) :
    (∀ s ∈ table body, s < 256) ∧ body.flatten.length = (table body).sum := by
  rw [table]
  split
  · next hnil => simp [hnil]
  · exact lace_table body

theorem flush_page (hsegments : w.segments = w.packets.flatMap fun p ↦ lace p.length)
    {eos : Bool} {out : Bytes} (hclose : w.packets ≠ [] ∨ eos = true)
    (hpage : page w.serial w.seqno w.granule (if eos then flagEos
      else 0) (table w.packets) w.packets.flatten =
      .ok out) :
    w.flushPage eos =
      .ok { w with out := w.out ++ out, seqno := w.seqno + 1, packets := [], segments := [] } := by
  rw [OggOpusWriter.flushPage]
  by_cases hnil : w.packets = []
  · have heos := hclose.resolve_left (not_not.mpr hnil)
    rw [hnil, List.flatMap_nil] at hsegments
    rw [hnil, table, if_pos rfl, if_pos heos, List.flatten_nil] at hpage
    rw [if_pos hnil, if_pos heos, hpage, hnil, hsegments]
    rfl
  · rw [table, if_neg hnil, ← hsegments] at hpage
    rw [if_neg hnil, hpage]
    rfl

theorem Written.close (h : Written serial samples head tags bodies w) (hserial : serial < 2 ^ 32)
    (hpos : 0 < samples) (hlen : bodies.flatten.length + w.packets.length < 2 ^ 32 - 2)
    (htotal : samples * (bodies.flatten.length + w.packets.length : ℕ) < 2 ^ 63) (eos : Bool)
    (hclose : w.packets ≠ [] ∨ eos = true) :
    ∃ out, w.flushPage eos =
      .ok { w with out := out, seqno := w.seqno + 1, packets := [], segments := [] } ∧
      out = (headers serial head tags ++
        layout serial samples eos 2 0 (bodies ++ [w.packets])).flatMap
          (Ogg.Page.encode oggCrc32) ∧
      ∀ p ∈ headers serial head tags ++ layout serial samples eos 2 0 (bodies ++ [w.packets]),
        p.Valid := by
  have hbodies : bodies.length ≤ bodies.flatten.length := by
    rw [List.length_flatten]
    refine (List.length_map (f := List.length)).symm.trans_le (List.length_le_sum_of_one_le _ ?_)
    intro n hn
    obtain ⟨body, hbody, rfl⟩ := List.mem_map.mp hn
    exact List.length_pos_of_ne_nil (h.filled body hbody)
  have hseqno : w.seqno < 2 ^ 32 := by
    rw [h.seqno]
    omega
  have hgranule : -2 ^ 63 ≤ w.granule ∧ w.granule < 2 ^ 63 := by
    have hnonneg : 0 ≤ w.granule := h.granule ▸ by positivity
    exact ⟨by omega, h.granule ▸ htotal⟩
  have htable : (table w.packets).length ≤ 255 := by
    rw [table]
    split
    · exact Nat.le_of_ble_eq_true rfl
    · exact h.segments ▸ h.room
  have hvalid : (bodyPage serial samples (if eos then flagEos else 0) (2 + bodies.length)
      (0 + bodies.flatten.length) w.packets).Valid := by
    refine ⟨?_, ?_, hserial, h.seqno ▸ hseqno, Nat.lt_succ_of_le htable, (table_sum _).1,
      (table_sum _).2⟩
    · simp only [bodyPage, pageOf]
      split <;> decide
    · simp only [bodyPage, pageOf]
      omega
  have hpage : page w.serial w.seqno w.granule (if eos then flagEos
    else 0) (table w.packets) w.packets.flatten =
      .ok ((bodyPage serial samples (if eos then flagEos else 0) (2 + bodies.length)
        (0 + bodies.flatten.length) w.packets).encode oggCrc32) := by
    rw [Nat.zero_add] at hvalid ⊢
    rw [h.serial, h.seqno, h.granule]
    exact page_ok hserial (h.seqno ▸ hseqno) (h.granule ▸ hgranule) hvalid
  refine ⟨_, flush_page h.segments hclose hpage, ?_, ?_⟩
  · rw [layout_snoc, ← List.append_assoc, List.flatMap_append, ← h.out, List.flatMap_singleton]
  · intro p hp
    rw [layout_snoc, ← List.append_assoc] at hp
    rcases List.mem_append.mp hp with hp | hp
    · exact h.valid p hp
    · exact List.mem_singleton.mp hp ▸ hvalid

theorem Written.makeRoom (h : Written serial samples head tags bodies w) (hserial : serial < 2 ^ 32)
    (hpos : 0 < samples) (hlen : bodies.flatten.length + w.packets.length < 2 ^ 32 - 2)
    (htotal : samples * (bodies.flatten.length + w.packets.length : ℕ) < 2 ^ 63) {n : ℕ}
    (hn : n ≤ 255) :
    ∃ bodies' w', w.makeRoom n = .ok w' ∧ Written serial samples head tags bodies' w' ∧
      bodies'.flatten ++ w'.packets = bodies.flatten ++ w.packets ∧
      w'.segments.length + n ≤ 255 := by
  rw [OggOpusWriter.makeRoom]
  by_cases hfull : maxSegments < w.segments.length + n
  · have hne : w.packets ≠ [] := by
      rintro hnil
      rw [h.segments, hnil, maxSegments] at hfull
      exact absurd (hfull.trans_le (Nat.zero_add n).le) (not_lt.mpr hn)
    obtain ⟨out, hflush, hout, hvalid⟩ := h.close hserial hpos hlen htotal false (.inl hne)
    have hflat : (bodies ++ [w.packets]).flatten = bodies.flatten ++ w.packets := by simp
    refine ⟨bodies ++ [w.packets], _, (if_pos hfull).trans hflush, ?_,
      by rw [hflat, List.append_nil], ?_⟩
    · refine ⟨hout, hvalid, ?_, rfl, Nat.zero_le _, ?_, ?_, ?_, h.serial, h.samples⟩
      · intro body hbody
        rcases List.mem_append.mp hbody with hbody | hbody
        · exact h.filled body hbody
        · exact List.mem_singleton.mp hbody ▸ hne
      · rw [h.seqno, List.length_append]
        rfl
      · rw [hflat, List.length_append]
        exact h.granule
      · rw [hflat, List.length_append]
        exact h.count
    · exact (Nat.zero_add n).trans_le hn
  · exact ⟨bodies, w, if_neg hfull, h, rfl, not_lt.mp hfull⟩

theorem Written.add (h : Written serial samples head tags bodies w) (hserial : serial < 2 ^ 32)
    (hpos : 0 < samples) (hlen : bodies.flatten.length + w.packets.length < 2 ^ 32 - 2)
    (htotal : samples * (bodies.flatten.length + w.packets.length : ℕ) < 2 ^ 63) {packet : Bytes}
    (hsize : packet.length ≤ 65024) :
    ∃ bodies' w', w.addPacket packet = .ok w' ∧ Written serial samples head tags bodies' w' ∧
      bodies'.flatten ++ w'.packets = bodies.flatten ++ w.packets ++ [packet] ∧
      w'.packets ≠ [] := by
  obtain ⟨bodies', w', hroom, h', hsame, hfits⟩ :=
    h.makeRoom hserial hpos hlen htotal (lace_room.mpr hsize)
  refine ⟨bodies', { w' with
    granule := w'.granule + w'.frameSamples, packets := w'.packets ++ [packet],
    segments := w'.segments ++ lace packet.length, packetCount := w'.packetCount + 1 },
    ?_, ⟨h'.out, h'.valid, h'.filled, ?_, ?_, h'.seqno, ?_, ?_, h'.serial, h'.samples⟩, ?_, by simp⟩
  · rw [OggOpusWriter.addPacket, hroom]
    rfl
  · simp [h'.segments]
  · simpa using hfits
  · simp only [h'.granule, h'.samples, List.length_append, List.length_singleton]
    push_cast
    ring
  · simp only [h'.count, List.length_append, List.length_singleton]
    omega
  · rw [← hsame, List.append_assoc]

theorem Written.adds (h : Written serial samples head tags bodies w) (hserial : serial < 2 ^ 32)
    (hpos : 0 < samples) {packets : List Bytes}
    (hlen : (bodies.flatten ++ w.packets ++ packets).length < 2 ^ 32 - 2)
    (htotal : samples * (bodies.flatten ++ w.packets ++ packets).length < 2 ^ 63)
    (hsize : ∀ p ∈ packets, p.length ≤ 65024) :
    ∃ bodies' w', packets.foldlM OggOpusWriter.addPacket w = .ok w' ∧
      Written serial samples head tags bodies' w' ∧
      bodies'.flatten ++ w'.packets = bodies.flatten ++ w.packets ++ packets := by
  induction packets generalizing bodies w with
  | nil => exact ⟨bodies, w, rfl, h, by simp⟩
  | cons p packets ih =>
    have hshort : bodies.flatten.length + w.packets.length ≤
        (bodies.flatten ++ w.packets ++ p :: packets).length := by
      rw [List.length_append, List.length_append]
      exact Nat.le_add_right _ _
    have hshort' : samples * (bodies.flatten.length + w.packets.length : ℕ) ≤
        samples * (bodies.flatten ++ w.packets ++ p :: packets).length :=
      mul_le_mul_of_nonneg_left (by exact_mod_cast hshort) hpos.le
    obtain ⟨bodies₁, w₁, hadd, h₁, hsame₁, -⟩ := h.add hserial hpos (hshort.trans_lt hlen)
      (hshort'.trans_lt htotal) (hsize p (by simp))
    have hlist : bodies₁.flatten ++ w₁.packets ++ packets =
        bodies.flatten ++ w.packets ++ p :: packets := by
      rw [hsame₁, List.append_assoc _ [p], List.singleton_append]
    obtain ⟨bodies', w', hadds, h', hsame⟩ :=
      ih h₁ (hlist ▸ hlen) (hlist ▸ htotal) fun q hq ↦ hsize q (by simp [hq])
    refine ⟨bodies', w', ?_, h', hsame.trans hlist⟩
    rw [List.foldlM_cons, hadd]
    exact hadds

def bare (serial channels : ℕ) (samples : ℤ) (preSkip : ℕ) (out : Bytes) (seqno : ℕ) :
    OggOpusWriter where
  serial := serial
  channels := channels
  frameSamples := samples
  preSkip := preSkip
  out := out
  seqno := seqno
  granule := 0
  packets := []
  segments := []
  packetCount := 0

theorem opusHead_ok {channels preSkip : ℕ} (hchannels : channels < 256) (hskip : preSkip < 2 ^ 16) :
    ∃ head, opusHead channels preSkip 48000 0 = .ok head ∧ head.length = 19 := by
  have hstart : bytesOf [1, channels] = .ok ([1, channels].map UInt8.ofNat) :=
    bytesOf_ok (by simpa using hchannels)
  have hpack : packU16 preSkip = .ok (packLE 2 preSkip) := if_pos hskip
  obtain ⟨head, hhead⟩ : ∃ head, opusHead channels preSkip 48000 0 = .ok head := by
    rw [opusHead, hstart, hpack]
    exact ⟨_, rfl⟩
  refine ⟨head, hhead, ?_⟩
  rw [opusHead, hstart, hpack] at hhead
  obtain rfl := Except.ok.inj hhead
  rfl

theorem new_written (serial : ℤ) {channels preSkip : ℕ} (samples : ℤ)
    (hhead : opusHead channels preSkip 48000 0 = .ok head)
    (htags : opusTags (ascii "opusfleet") = .ok tags)
    (hheadsize : head.length ≤ 65024) (htagssize : tags.length ≤ 65024) :
    ∃ w, OggOpusWriter.new serial channels samples preSkip = .ok w ∧
      Written (serial % 2 ^ 32).toNat samples head tags [] w ∧ w.packets = [] := by
  obtain ⟨n, hn⟩ : ∃ n, n = (serial % 2 ^ 32).toNat := ⟨_, rfl⟩
  have hserial : n < 2 ^ 32 := by omega
  rw [← hn]
  obtain ⟨hvalid₁, hemit₁⟩ := emit_page (w := bare n channels samples preSkip [] 0) hserial
    (Nat.two_pow_pos 32) (show flagBos < 256 by decide) hheadsize
  obtain ⟨hvalid₂, hemit₂⟩ := emit_page (w := bare n channels samples preSkip
    ([] ++ (pageOf n 0 0 flagBos (lace head.length) head).encode oggCrc32) 1) hserial
    (show 1 < 2 ^ 32 by decide) (show 0 < 256 by decide) htagssize
  have hnew : OggOpusWriter.new serial channels samples preSkip =
    .ok (bare n channels samples preSkip
      ((headers n head tags).flatMap (Ogg.Page.encode oggCrc32)) 2) := by
    have hfirst := congrArg (fun r ↦ r.bind fun w ↦ w.emit tags 0 0) hemit₁
    rw [OggOpusWriter.new, hhead, htags, ← hn, headers, List.flatMap_cons, List.flatMap_singleton]
    exact hfirst.trans hemit₂
  refine ⟨_, hnew, ⟨?_, ?_, by simp, rfl, Nat.zero_le _, rfl, ?_, rfl, rfl, rfl⟩, rfl⟩
  · rw [layout, List.append_nil]
    rfl
  · intro p hp
    simp only [layout, List.append_nil, headers, List.mem_cons, List.not_mem_nil, or_false] at hp
    rcases hp with rfl | rfl
    · exact hvalid₁
    · exact hvalid₂
  · simp [bare]

end Writer

/-- Every stream of the writer is a valid Ogg Opus stream with the packets it was given. -/
theorem mux_stream (serial : ℤ) {channels preSkip : ℕ} {samples : ℤ} {packets : List Bytes}
    (hchannels : channels < 256) (hskip : preSkip < 2 ^ 16) (hpos : 0 < samples)
    (hlen : packets.length < 2 ^ 32 - 2) (hsize : ∀ p ∈ packets, p.length ≤ 65024)
    (htotal : samples * packets.length < 2 ^ 63) :
    ∃ data head tags pages, opusHead channels preSkip 48000 0 = .ok head ∧
      opusTags (ascii "opusfleet") = .ok tags ∧
      mux serial channels samples preSkip packets =
        .ok (data, (packets.length * samples / 48000 : ℚ)) ∧
      Ogg.readPages oggCrc32 data.length data = some pages ∧
      data = pages.flatMap (Ogg.Page.encode oggCrc32) ∧
      Stream (serial % 2 ^ 32).toNat samples head tags packets pages ∧
      ∀ p ∈ pages,
        oggCrc32 ((p.encode oggCrc32).take 22 ++ ([0, 0, 0, 0] ++ (p.encode oggCrc32).drop 26)) =
          unpackLE (((p.encode oggCrc32).drop 22).take 4) := by
  obtain ⟨head, hhead, hheadsize⟩ := opusHead_ok hchannels hskip
  obtain ⟨tags, htags⟩ : ∃ tags, opusTags (ascii "opusfleet") = .ok tags := ⟨_, rfl⟩
  have htagssize : tags.length ≤ 65024 := by
    obtain rfl := Except.ok.inj htags
    decide
  have hserial : (serial % 2 ^ 32).toNat < 2 ^ 32 := by omega
  obtain ⟨w, hnew, hw, hnil⟩ := new_written serial samples hhead htags (by omega) htagssize
  have hstart : ([] : List (List Bytes)).flatten ++ w.packets ++ packets = packets := by
    rw [hnil]
    rfl
  obtain ⟨bodies, w', hadds, hw', hsame⟩ :=
    hw.adds hserial hpos (hstart.symm ▸ hlen) (hstart.symm ▸ htotal) hsize
  rw [hstart] at hsame
  have hcount : bodies.flatten.length + w'.packets.length = packets.length := by
    rw [← hsame, List.length_append]
  obtain ⟨out, hflush, hout, hvalid⟩ :=
    hw'.close hserial hpos (hcount ▸ hlen) (hcount ▸ htotal) true (.inr rfl)
  have hflat : (bodies ++ [w'.packets]).flatten = packets := by
    rw [List.flatten_append, List.flatten_singleton, hsame]
  have hstream :=
    stream_of_layout hpos (List.append_ne_nil_of_right_ne_nil bodies
      (List.cons_ne_nil w'.packets []))
    (hflat.symm ▸ htotal) hvalid
  rw [hflat] at hstream
  refine ⟨out, head, tags, _, hhead, htags, ?_, ?_, hout, hstream, fun p _ ↦ ?_⟩
  · rw [mux, hnew]
    simp only [bind, Except.bind, pure, Except.pure, hadds, OggOpusWriter.finish, hflush,
      OggOpusWriter.durationS, hw'.count, hw'.samples, hcount]
  · rw [hout]
    exact Ogg.readPages_encode oggCrc32_lt hvalid (Ogg.length_le_encode _)
  · exact (p.encode_checksum oggCrc32_lt).symm

theorem Stream.spread {serial : ℕ} {samples : ℤ} {head tags : Bytes} {packets : List Bytes}
    {pages : List Ogg.Page} (h : Stream serial samples head tags packets pages) :
    (packets.map fun p ↦ p.length / 255 + 1).sum ≤ 255 * (pages.length - 2) := by
  obtain ⟨bodies, rfl, hcount, hbodies⟩ := h.audio
  have hroom : ∀ n ∈ bodies.map fun body ↦ (body.map fun p ↦ p.length / 255 + 1).sum, n ≤ 255 := by
    intro n hn
    obtain ⟨body, hbody, rfl⟩ := List.mem_map.mp hn
    obtain ⟨k, hk⟩ := List.getElem?_of_mem hbody
    obtain ⟨p, hp, -, htable, -⟩ := hbodies k body hk
    have hle := (h.table p (List.mem_of_getElem? hp)).2.1
    rw [htable, OggOpus.table] at hle
    split at hle
    · next hnil => simp [hnil]
    · simpa [List.length_flatMap, lace_length] using hle
  have hsum := List.sum_le_card_nsmul _ 255 hroom
  rw [List.map_flatten, List.sum_flatten, List.map_map, hcount, Nat.add_sub_cancel]
  simpa [Nat.mul_comm, Function.comp_def] using hsum

/-- A packet that fills a page, and short packets for a page and a part of another. -/
def crowded : List Bytes := List.replicate 65024 0 :: List.replicate 300 [7]

theorem mux_stream_crowded :
    ∃ data head tags pages, opusHead channels preSkip 48000 0 = .ok head ∧
      opusTags (ascii "opusfleet") = .ok tags ∧
      mux (-1) channels frameSamples preSkip crowded =
        .ok (data, (301 * frameSamples / 48000 : ℚ)) ∧
      Ogg.readPages oggCrc32 data.length data = some pages ∧
      Stream (2 ^ 32 - 1) frameSamples head tags crowded pages ∧ 5 ≤ pages.length := by
  have hcount : crowded.length = 301 := by
    rw [crowded, List.length_cons, List.length_replicate]
  have hsize : ∀ p ∈ crowded, p.length ≤ 65024 := by
    intro p hp
    rcases List.mem_cons.mp hp with rfl | hp
    · rw [List.length_replicate]
    · rw [List.eq_of_mem_replicate hp]
      decide
  obtain ⟨data, head, tags, pages, hhead, htags, hmux, hread, -, hstream, -⟩ :=
    mux_stream (-1) (by decide : channels < 256) (by decide : preSkip <
      2 ^ 16) (by decide : (0 : ℤ) < frameSamples)
      (by rw [hcount]; decide) hsize (by rw [hcount]; decide)
  have hentries : (crowded.map fun p ↦ p.length / 255 + 1).sum = 555 := by
    simp [crowded, -List.reduceReplicate]
  have hpages := hstream.spread
  rw [hentries] at hpages
  rw [hcount] at hmux
  refine ⟨data, head, tags, pages, hhead, htags, hmux, hread, hstream, ?_⟩
  omega

end OpusFleet.Server.OggOpus
