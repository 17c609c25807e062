import OpusFleet.Server.Framing

namespace OpusFleet.Server.Protocol

open Python Library.Octets

section Kinds

variable (limit : ℕ)

theorem startsWith_append (head tail : Bytes) : startsWith (head ++ tail) head = true := by
  rw [startsWith, List.isPrefixOf_iff_prefix]
  exact List.prefix_append head tail

theorem encodeAscii_eq {s : Str} (h : Ascii s) : encodeAscii s = .ok (s.map UInt8.ofNat) :=
  if_pos (by simpa [Ascii] using h)

theorem encodeAscii_error {s : Str} (h : ¬ Ascii s) : encodeAscii s = .error .unicode :=
  if_neg (by simpa only [List.all_eq_true, decide_eq_true_eq, Ascii] using h)

theorem classify_hello_frame {id : Str} (hascii : Ascii id) :
    classify limit (helloPrefix ++ id.map UInt8.ofNat) =
      .ok (.hello (if strip id = [] then lit "unknown" else strip id)) := by
  rw [classify, if_pos (startsWith_append _ _), List.drop_left, decodeAsciiIgnore_ascii hascii]

theorem classify_auth_frame (body : Bytes) :
    classify limit (authPrefix ++ body) = (parseAuth (authPrefix ++ body)).map fun p ↦
      .auth p.1 p.2 := by
  have hhello : startsWith (authPrefix ++ body) helloPrefix = false := rfl
  rw [classify, if_neg (by simp [hhello]), if_pos (startsWith_append _ _)]

theorem classify_stat_frame (body : Bytes) :
    classify limit (statPrefix ++ body) = (parseStat limit body).map .stat := by
  have hhello : startsWith (statPrefix ++ body) helloPrefix = false := rfl
  have hauth : startsWith (statPrefix ++ body) authPrefix = false := rfl
  rw [classify, if_neg (by simp [hhello]), if_neg (by simp [hauth]), if_pos (startsWith_append _ _),
    List.drop_left]

theorem splitOnce_append {sep : ℕ} {s : Str} (t : Str) (h : sep ∉ s) :
    splitOnce sep (s ++ sep :: t) = (s, t) := by
  have hall : ∀ c ∈ s, (c != sep) = true := by
    intro c hc
    rw [bne_iff_ne]
    rintro rfl
    exact h hc
  rw [splitOnce, List.takeWhile_append_of_pos hall, List.dropWhile_append_of_pos hall]
  simp

theorem splitOnce_takeWhile (sep : ℕ) (s t : Str) :
    (splitOnce sep (s ++ sep :: t)).1 = s.takeWhile (· != sep) := by
  simp only [splitOnce]
  induction s with
  | nil => simp
  | cons c s ih =>
    rw [List.cons_append, List.takeWhile_cons, List.takeWhile_cons, ih]

theorem parseAuth_frame {id mac : Str} (hid : Ascii id) (hmac : Ascii mac) :
    parseAuth (authPrefix ++ (id ++ lit ":" ++ mac).map UInt8.ofNat) =
      if strip (id.takeWhile (· != 58)) = [] ∨ strip
        (splitOnce 58 (id ++ lit ":" ++ mac)).2 = [] then
        .error (.protocol (lit "AUTH frame has an empty id or MAC"))
      else .ok (strip (id.takeWhile (· != 58)), strip (splitOnce 58 (id ++ lit ":" ++ mac)).2) := by
  have hascii : Ascii (id ++ lit ":" ++ mac) := by
    rw [ascii_append, ascii_append]
    exact ⟨⟨hid, by decide⟩, hmac⟩
  have hcolon : ¬ 58 ∉ id ++ lit ":" ++ mac := by simp [lit]
  have hfirst : (splitOnce 58 (id ++ lit ":" ++ mac)).1 = id.takeWhile (· != 58) := by
    rw [List.append_assoc]
    exact splitOnce_takeWhile 58 id mac
  rw [parseAuth, List.drop_left, decodeAsciiIgnore_ascii hascii]
  simp only [if_neg hcolon, hfirst]

theorem parseAuth_clean {id mac : Str} (hid : Ascii id) (hmac : Ascii mac) (hcolon : 58 ∉ id)
    (hne : id ≠ []) (hne' : mac ≠ []) (hstrip : strip id = id) (hstrip' : strip mac = mac) :
    parseAuth (authPrefix ++ (id ++ lit ":" ++ mac).map UInt8.ofNat) = .ok (id, mac) := by
  have hwhole : id.takeWhile (· != 58) = id := by
    rw [List.takeWhile_eq_self_iff]
    intro c hc
    rw [bne_iff_ne]
    rintro rfl
    exact hcolon hc
  have hsecond : (splitOnce 58 (id ++ lit ":" ++ mac)).2 = mac := by
    rw [List.append_assoc]
    exact congrArg Prod.snd (splitOnce_append mac hcolon)
  rw [parseAuth_frame hid hmac, hwhole, hsecond, hstrip, hstrip', if_neg (by simp [hne, hne'])]

theorem classify_audio_frame (opus : Bytes) (seq ts ssrc : ℤ) :
    classify limit (buildAudio opus seq ts ssrc) = .ok (.audio (buildAudio opus seq ts ssrc)) := by
  rw [classify,
    if_neg (by simp [show startsWith (buildAudio opus seq ts ssrc) helloPrefix = false from rfl]),
    if_neg (by simp [show startsWith (buildAudio opus seq ts ssrc) authPrefix = false from rfl]),
    if_neg (by simp [show startsWith (buildAudio opus seq ts ssrc) statPrefix = false from rfl])]

end Kinds

section Audio

theorem unpackBE_packBE (k n : ℕ) (hn : n < 256 ^ k) : unpackBE (packBE k n) = n := by
  rw [unpackBE, packBE, List.reverse_reverse, unpackLE_packLE k n hn]

theorem parseAudio_buildAudio {opus : Bytes} (hopus : opus ≠ []) (seq ts ssrc : ℤ) :
    parseAudio (buildAudio opus seq ts ssrc) = .ok ⟨(seq % 2 ^ 16).toNat, (ts % 2 ^ 32).toNat,
      (ssrc % 2 ^ 32).toNat, opus⟩ := by
  have hlen : (rtpHeader seq ts ssrc).length = rtpHeaderLen := by simp [rtpHeader, rtpHeaderLen]
  have hlong : ¬ (buildAudio opus seq ts ssrc).length ≤ rtpHeaderLen := by
    have := List.length_pos_of_ne_nil hopus
    rw [buildAudio, List.length_append, hlen]
    omega
  have hfield (n : ℤ) (k : ℕ) : (n % 2 ^ k).toNat < 2 ^ k := by
    have h₁ := Int.emod_nonneg n (show (2 : ℤ) ^ k ≠ 0 by positivity)
    have h₂ := Int.emod_lt_of_pos n (show (0 : ℤ) < 2 ^ k by positivity)
    zify
    omega
  rw [parseAudio, if_neg hlong]
  congr
  · exact unpackBE_packBE 2 _ (hfield seq 16)
  · exact unpackBE_packBE 4 _ (hfield ts 32)
  · exact unpackBE_packBE 4 _ (hfield ssrc 32)

end Audio

section Format

inductive DeviceMessage
  | hello (id : Str)
  | auth (id mac : Str)
  | stat (value : Value)
  | audio (opus : Bytes) (seq ts ssrc : ℤ)

namespace DeviceMessage

def build (dumps : Dumps) : DeviceMessage → Except Exc Bytes
  | hello id => buildHello id
  | auth id mac => buildAuth id mac
  | stat value => .ok (buildStat dumps value)
  | audio opus seq ts ssrc => .ok (buildAudio opus seq ts ssrc)

def receive (limit : ℕ) (payload : Bytes) : Except Exc DeviceMessage :=
  match classify limit payload with
  | .error e => .error e
  | .ok (.hello id) => .ok (hello id)
  | .ok (.auth id mac) => .ok (auth id mac)
  | .ok (.stat value) => .ok (stat value)
  | .ok (.audio payload) => (parseAudio payload).map fun a ↦ audio a.opus a.seq a.ts a.ssrc

/-- The message with the header fields of audio cut to their width. -/
def wrapped : DeviceMessage → DeviceMessage
  | audio opus seq ts ssrc => audio opus (seq % 2 ^ 16) (ts % 2 ^ 32) (ssrc % 2 ^ 32)
  | m => m

def Clean (s : Str) : Prop := Ascii s ∧ s ≠ [] ∧ strip s = s

/-- The messages that the format carries, when JSON gives each object back. -/
def Valid (dumps : Dumps) (limit : ℕ) : DeviceMessage → Prop
  | hello id => Clean id
  | auth id mac => Clean id ∧ Clean mac ∧ 58 ∉ id
  | stat value => loads limit (dumps.text value) = .ok value
  | audio opus _ _ _ => opus ≠ []

variable (dumps : Dumps) (limit : ℕ)

theorem parseStat_dumps {value : Value} (h : loads limit (dumps.text value) = .ok value) :
    parseStat limit (encode (dumps.text value)) = .ok value := by
  have hascii := dumps.text_ascii value
  simp only [parseStat, encode_ascii hascii, decode_ascii hascii, h]

/-- A payload is built and read back as the message it was built from. -/
theorem receive_build {m : DeviceMessage} (h : m.Valid dumps limit) :
    ∃ payload, m.build dumps = .ok payload ∧ receive limit payload = .ok m.wrapped := by
  cases m with
  | hello id =>
    obtain ⟨hascii, hne, hstrip⟩ := h
    refine ⟨helloPrefix ++ id.map UInt8.ofNat, ?_, ?_⟩
    · simp only [build, buildHello, encodeAscii_eq hascii]
      rfl
    · simp only [receive, classify_hello_frame limit hascii, hstrip, if_neg hne]
      rfl
  | auth id mac =>
    obtain ⟨⟨hid, hne, hstrip⟩, ⟨hmac, hne', hstrip'⟩, hcolon⟩ := h
    have hascii : Ascii (id ++ lit ":" ++ mac) := by
      rw [ascii_append, ascii_append]
      exact ⟨⟨hid, by decide⟩, hmac⟩
    refine ⟨authPrefix ++ (id ++ lit ":" ++ mac).map UInt8.ofNat, ?_, ?_⟩
    · simp only [build, buildAuth, encodeAscii_eq hascii]
      rfl
    · simp only [receive, classify_auth_frame,
        parseAuth_clean hid hmac hcolon hne hne' hstrip hstrip']
      rfl
  | stat value =>
    refine ⟨buildStat dumps value, rfl, ?_⟩
    simp only [receive, buildStat, classify_stat_frame, parseStat_dumps dumps limit h]
    rfl
  | audio opus seq ts ssrc =>
    refine ⟨buildAudio opus seq ts ssrc, rfl, ?_⟩
    have hfield (n : ℤ) (k : ℕ) : ((n % 2 ^ k).toNat : ℤ) = n % 2 ^ k :=
      Int.toNat_of_nonneg (Int.emod_nonneg n (by positivity))
    simp only [receive, classify_audio_frame, parseAudio_buildAudio h, Except.map, wrapped, hfield]

/-- Every list of messages is framed, cut into the same frames again and read back in
order, with nothing left over. -/
theorem messages_round_trip (msgs : List DeviceMessage) (hvalid : ∀ m ∈ msgs, m.Valid dumps limit)
    (hfits : ∀ m ∈ msgs, ∀ payload, m.build dumps = .ok payload → payload.length ≤ maxFrame) :
    ∃ frames payloads, (msgs.mapM fun m ↦ m.build dumps >>= frame) = .ok frames ∧
      iterFrames frames.flatten = (payloads, []) ∧
      payloads.map (receive limit) = msgs.map fun m ↦ .ok m.wrapped := by
  suffices h : ∃ payloads : List Bytes, (msgs.mapM fun m ↦ m.build dumps >>= frame) =
        .ok (payloads.map encodeFrame) ∧ (∀ p ∈ payloads, p.length ≤ maxFrame) ∧
      payloads.map (receive limit) = msgs.map fun m ↦ .ok m.wrapped by
    obtain ⟨payloads, hbuild, hlen, hread⟩ := h
    refine ⟨_, payloads, hbuild, iterFrames_eq ⟨?_, hlen, .inl (by simp)⟩, hread⟩
    rw [List.append_nil, List.flatMap_def]
  induction msgs with
  | nil => exact ⟨[], rfl, by simp, rfl⟩
  | cons m msgs ih =>
    obtain ⟨payload, hm, hr⟩ := receive_build dumps limit (hvalid m (by simp))
    have hlen := hfits m (by simp) payload hm
    obtain ⟨payloads, hbuild, hlens, hread⟩ := ih (fun x hx ↦ hvalid x (by simp [hx]))
      fun x hx ↦ hfits x (by simp [hx])
    refine ⟨payload :: payloads, ?_, ?_, ?_⟩
    · have hfirst : (m.build dumps >>= frame) = .ok (encodeFrame payload) := by
        rw [hm]
        exact frame_eq_ok hlen
      rw [List.mapM_cons, hfirst, hbuild]
      rfl
    · intro p hp
      rcases List.mem_cons.mp hp with rfl | hp
      · exact hlen
      · exact hlens p hp
    · rw [List.map_cons, List.map_cons, hr, hread]

def emptyDumps : Dumps := ⟨fun _ ↦ lit "\x7b\x7d", fun _ ↦ by decide⟩

theorem loads_empty (limit : ℕ) : loads (limit + 1) (lit "\x7b\x7d") = .ok (.dict []) := by
  have ht : Json.tokenize (lit "\x7b\x7d") = [.openDict, .closeDict] := by
    have hopen : Json.tokenize (lit "\x7b\x7d") = .openDict :: Json.tokenize [125] :=
      Json.tokenize_cons rfl rfl
    rw [hopen, Json.tokenize_last (c := 125) rfl rfl]
  simp only [loads, ht]
  rfl

theorem messages_round_trip_four :
    ∃ frames payloads, ([.hello (lit "A"), .auth (lit "A") (lit "0f"), .stat (.dict []),
        .audio [1] 65537 (-1) 0] : List DeviceMessage).mapM
          (fun m ↦ m.build emptyDumps >>= frame) = .ok frames ∧
      iterFrames frames.flatten = (payloads, []) ∧
      payloads.map (receive 1000) = [.ok (.hello (lit "A")), .ok (.auth (lit "A") (lit "0f")),
        .ok (.stat (.dict [])), .ok (.audio [1] 1 4294967295 0)] := by
  refine messages_round_trip emptyDumps 1000 _ ?_ ?_
  · simp only [List.forall_mem_cons, List.not_mem_nil, false_imp_iff, implies_true, and_true, Valid,
      Clean]
    exact ⟨by decide, by decide, loads_empty 999, by decide⟩
  · simp only [List.forall_mem_cons, List.not_mem_nil, false_imp_iff, implies_true, and_true]
    refine ⟨?_, ?_, ?_, ?_⟩
    all_goals
      intro payload h
      obtain rfl := Except.ok.inj h
      decide

end DeviceMessage

end Format

end OpusFleet.Server.Protocol
