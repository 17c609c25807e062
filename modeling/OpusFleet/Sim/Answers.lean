import OpusFleet.Server.Provisioning
import OpusFleet.Server.Rollout

namespace OpusFleet.Sim

open Python Server Server.Protocol Server.Auth

/-- `reader.read(n)` where these chunks arrive in time, an empty one at the end of the stream: the
bytes and what is left, nothing if nothing arrives. -/
def read (n : ℕ) : List Bytes → Option (Bytes × List Bytes)
  | [] => none
  | chunk :: chunks =>
    some (chunk.take n, if chunk.length ≤ n then chunks else chunk.drop n :: chunks)

/-- How `_authenticate` takes what it reads after its AUTH frame. -/
def judge (reply : Bytes) : Option Exc :=
  match (iterFrames reply).1 with
  | payload :: _ => if startsWith payload denyPrefix then some .connection else none
  | [] => none

/-- `_authenticate`: what it writes and the exception that leaves it. The chunks of `answer`
arrive after the AUTH frame is out. -/
def handshake (hmac : Hmac) (imei : Str) (key : Option Bytes) (challenge answer : List Bytes) :
    List Bytes × Option Exc :=
  match read 4096 challenge with
  | none => ([], none)
  | some (data, rest) =>
    if data = [] then ([], some .connection)
    else
      match authenticate hmac imei key data with
      | .error e => ([], some e)
      | .ok none => ([], none)
      | .ok (some wire) =>
        match read 4096 (rest ++ answer) with
        | none => ([wire], some .timeout)
        | some (reply, _) => ([wire], judge reply)

inductive Reply
  | ok (deviceId : Str)
  | deny (reason : Str)

namespace Reply

def wire : Reply → Except Exc Bytes
  | .ok deviceId => Ingest.okFrame deviceId
  | .deny reason => buildDeny reason >>= frame

def Denies : Reply → Prop
  | .ok _ => False
  | .deny _ => True

theorem frame_inv {built : Except Exc Bytes} {wire : Bytes} (h : (built >>= frame) = .ok wire) :
    ∃ payload, built = .ok payload ∧ payload.length ≤ maxFrame ∧ wire = encodeFrame payload := by
  cases built with
  | error e => cases h
  | ok payload =>
    change frame payload = .ok wire at h
    by_cases hfits : payload.length ≤ maxFrame
    · rw [frame_eq_ok hfits] at h
      exact ⟨payload, rfl, hfits, (Except.ok.inj h).symm⟩
    · rw [frame, if_pos (by omega)] at h
      cases h

theorem prefix_inv {head payload : Bytes} {text : Str}
    (h : (encodeAscii text).map (head ++ ·) = .ok payload) :
    ∃ body, payload = head ++ body := by
  cases hascii : encodeAscii text with
  | error e => simp [hascii, Except.map] at h
  | ok body => exact ⟨body, by simpa [hascii, Except.map] using h.symm⟩

theorem wire_frame {reply : Reply} {wire : Bytes} (h : reply.wire = .ok wire) :
    ∃ payload, payload.length ≤ maxFrame ∧ wire = encodeFrame payload ∧
      (startsWith payload denyPrefix = true ↔ reply.Denies) := by
  cases reply with
  | ok deviceId =>
    obtain ⟨payload, hbuilt, hfits, rfl⟩ := frame_inv h
    obtain ⟨body, rfl⟩ := prefix_inv hbuilt
    have hdeny : startsWith (okPrefix ++ body) denyPrefix = false := rfl
    exact ⟨_, hfits, rfl, by simp [hdeny, Denies]⟩
  | deny reason =>
    obtain ⟨payload, hbuilt, hfits, rfl⟩ := frame_inv h
    obtain ⟨body, rfl⟩ := prefix_inv hbuilt
    exact ⟨_, hfits, rfl, by simp [startsWith_append, Denies]⟩

end Reply

/-- The frame comes in one piece that a read takes whole. -/
def Whole (wire : Bytes) (chunks : List Bytes) : Prop := chunks = [wire] ∧ wire.length ≤ 4096

theorem read_frame {payload : Bytes} (hfits : payload.length ≤ maxFrame) {chunks : List Bytes}
    (hne : ∀ c ∈ chunks, c ≠ []) (hflat : chunks.flatten = encodeFrame payload) :
    ∃ data rest, read 4096 chunks = some (data, rest) ∧ data ≠ [] ∧
      (Whole (encodeFrame payload) chunks ∧ data = encodeFrame payload ∧ rest = [] ∨
        ¬Whole (encodeFrame payload) chunks ∧ (iterFrames data).1 = []) := by
  cases chunks with
  | nil =>
    have hlength := congrArg List.length hflat
    rw [encodeFrame_length, List.flatten_nil, List.length_nil] at hlength
    omega
  | cons c cs =>
    have hc : c ≠ [] := hne c (by simp)
    have hcut : c.take 4096 ++ (c.drop 4096 ++ cs.flatten) = encodeFrame payload := by
      rw [← List.append_assoc, List.take_append_drop, ← hflat, List.flatten_cons]
    refine ⟨_, _, rfl, by simpa using hc, ?_⟩
    by_cases hmore : c.drop 4096 ++ cs.flatten = []
    · obtain ⟨hdrop, hcs⟩ := List.append_eq_nil_iff.mp hmore
      have hlen : c.length ≤ 4096 := List.drop_eq_nil_iff.mp hdrop
      obtain rfl : cs = [] := by
        cases cs with
        | nil => rfl
        | cons d ds => exact absurd (List.flatten_eq_nil_iff.mp hcs d (by simp)) (hne d (by simp))
      rw [hmore, List.append_nil, List.take_of_length_le hlen] at hcut
      exact .inl ⟨⟨by rw [hcut], hcut ▸ hlen⟩, by rw [List.take_of_length_le hlen, hcut],
        if_pos hlen⟩
    · refine .inr ⟨fun hwhole ↦ hmore ?_, ?_⟩
      · obtain ⟨heq, hlen⟩ := hwhole
        obtain ⟨rfl, rfl⟩ := List.cons.inj heq
        simpa using hlen
      · have hjoin := iterFrames_joined (c.take 4096)
        rcases hframes : (iterFrames (c.take 4096)).1 with _ | ⟨f, frames⟩
        · rfl
        · have hf : f.length ≤ maxFrame := iterFrames_fits (c.take 4096) (by simp [hframes])
          rw [hframes, List.flatMap_cons, List.append_assoc] at hjoin
          rw [← hjoin, List.append_assoc, ← List.append_nil (encodeFrame payload)] at hcut
          have htail := (encodeFrame_append_inj hf hfits hcut).2
          exact absurd (List.append_eq_nil_iff.mp htail).2 hmore

section Chunks

variable {hmac : Hmac} {imei : Str} {key : Bytes} {nonce : Nonce} {reply : Reply}
    {challenge answer : List Bytes}

theorem authenticate_challenge (hmac : Hmac) (imei : Str) (key : Bytes) (nonce : Nonce) :
    authenticate hmac imei (some key) (Ingest.challengeFrame nonce) =
      (buildAuth imei (sign hmac key nonce.1) >>= frame).map some := by
  have hstarts : startsWith (buildChallenge nonce.1) challengePrefix = true := startsWith_append _ _
  simp only [authenticate, challengeFrame_frames, hstarts, if_true, parseChallenge_buildChallenge]
  change (buildAuth imei (sign hmac key nonce.1) >>= fun auth ↦ frame auth >>= fun wire ↦
    pure (some wire)) = _
  cases buildAuth imei (sign hmac key nonce.1) with
  | error e => rfl
  | ok auth =>
    change (frame auth >>= fun wire ↦ pure (some wire)) = (frame auth).map some
    cases frame auth <;> rfl

theorem authenticate_unparsed {data : Bytes} (h : (iterFrames data).1 = []) (key : Option Bytes) :
    authenticate hmac imei key data = .ok none := by rw [authenticate, h]

theorem auth_frame_iff (hmac : Hmac) (imei : Str) (key nonce : Bytes) :
    (∃ auth, (buildAuth imei (sign hmac key nonce) >>= frame) = .ok auth) ↔
      Ascii imei ∧ imei.length ≤ 65465 := by
  obtain ⟨⟨hmac', -, -⟩, hlength⟩ := sign_clean hmac key nonce
  have hsize : (authPrefix ++ (imei ++ lit ":" ++ sign hmac key nonce).map UInt8.ofNat).length =
      imei.length + 70 := by
    simp only [List.length_append, List.length_map, hlength, macHexLen]
    simp [authPrefix, ascii, lit]
    omega
  have hascii : Ascii (imei ++ lit ":" ++ sign hmac key nonce) ↔ Ascii imei := by
    rw [ascii_append, ascii_append]
    exact ⟨fun h ↦ h.1.1, fun h ↦ ⟨⟨h, by decide⟩, hmac'⟩⟩
  constructor
  · rintro ⟨auth, h⟩
    obtain ⟨payload, hbuilt, hfits, -⟩ := Reply.frame_inv h
    by_cases hall : Ascii (imei ++ lit ":" ++ sign hmac key nonce)
    · rw [buildAuth, encodeAscii_eq hall] at hbuilt
      rw [← Except.ok.inj hbuilt, hsize, maxFrame] at hfits
      exact ⟨hascii.mp hall, by omega⟩
    · rw [buildAuth, encodeAscii_error hall] at hbuilt
      cases hbuilt
  · rintro ⟨hid, hlen⟩
    rw [buildAuth, encodeAscii_eq (hascii.mpr hid)]
    refine ⟨_, frame_eq_ok ?_⟩
    rw [hsize, maxFrame]
    omega

theorem challengeFrame_length (nonce : Nonce) : (Ingest.challengeFrame nonce).length ≤ 4096 := by
  rw [Ingest.challengeFrame, encodeFrame_length, buildChallenge, encode_ascii (hex_ascii _),
    List.length_append, List.length_map, hex_length, nonce.2]
  decide

/-- A reply is understood exactly when it is no DENY or comes whole. -/
theorem judge_iff {wire : Bytes} (hwire : reply.wire = .ok wire) (hanswer : answer.flatten = wire)
    (hne : ∀ c ∈ answer, c ≠ []) :
    ∃ data rest, read 4096 answer = some (data, rest) ∧
      ((judge data = some .connection ↔ reply.Denies) ↔ (reply.Denies → Whole wire answer)) := by
  obtain ⟨payload, hfits, rfl, hdenies⟩ := Reply.wire_frame hwire
  obtain ⟨data, rest, hread, -, ⟨hwhole, rfl, rfl⟩ | ⟨hcut, hnone⟩⟩ := read_frame hfits hne hanswer
  · have hjudge : judge (encodeFrame payload) = some .connection ↔ reply.Denies := by
      have hframes := iterFrames_frame hfits []
      rw [List.append_nil] at hframes
      rw [judge, hframes, ← hdenies]
      simp
    exact ⟨_, [], hread, iff_of_true hjudge fun _ ↦ hwhole⟩
  · have hjudge : judge data = none := by rw [judge, hnone]
    refine ⟨data, rest, hread, ?_⟩
    rw [hjudge]
    constructor
    · exact fun h hdeny ↦ absurd (h.mpr hdeny) (by simp)
    · exact fun h ↦ ⟨fun habs ↦ absurd habs (by simp), fun hdeny ↦ absurd (h hdeny) hcut⟩

/-- The device writes one AUTH frame, with the signature of the nonce, and raises
ConnectionError exactly when it is denied. -/
def Answered (hmac : Hmac) (imei : Str) (key : Bytes) (nonce : Nonce) (reply : Reply)
    (result : List Bytes × Option Exc) : Prop :=
  (∃ auth, (buildAuth imei (sign hmac key nonce.1) >>= frame) = .ok auth ∧ result.1 = [auth]) ∧
    (result.2 = some .connection ↔ reply.Denies)

/-- The handshake of the device depends on how the server's bytes are cut: it works exactly where
each frame that it has to understand comes whole. -/
theorem handshake_answered_iff {wire : Bytes} (hwire : reply.wire = .ok wire)
    (hchallenge : challenge.flatten = Ingest.challengeFrame nonce) (hanswer : answer.flatten = wire)
    (hne : ∀ c ∈ challenge, c ≠ []) (hne' : ∀ c ∈ answer, c ≠ []) :
    Answered hmac imei key nonce reply (handshake hmac imei (some key) challenge answer) ↔
      challenge = [Ingest.challengeFrame nonce] ∧ (Ascii imei ∧ imei.length ≤ 65465) ∧
        (reply.Denies → Whole wire answer) := by
  have hfits : (buildChallenge nonce.1).length ≤ maxFrame :=
    iterFrames_fits (Ingest.challengeFrame nonce) (by simp [challengeFrame_frames])
  have hwhole : Whole (encodeFrame (buildChallenge nonce.1)) challenge ↔
      challenge = [Ingest.challengeFrame nonce] := and_iff_left (challengeFrame_length nonce)
  obtain ⟨data, rest, hread, hdata, hfirst⟩ := read_frame hfits hne hchallenge
  rw [handshake, hread, ← auth_frame_iff hmac imei key nonce.1, ← hwhole]
  simp only [if_neg hdata]
  rcases hfirst with ⟨hcut, rfl, rfl⟩ | ⟨hcut, hnone⟩
  · have hauth := authenticate_challenge hmac imei key nonce
    rw [Ingest.challengeFrame] at hauth
    rw [hauth]
    cases hbuild : buildAuth imei (sign hmac key nonce.1) >>= frame with
    | error e => exact iff_of_false (fun h ↦ by simp [Answered, hbuild] at h) fun h ↦ by simp at h
    | ok auth =>
      obtain ⟨data, rest, hread, hunderstood⟩ := judge_iff hwire hanswer hne'
      have hresult : Answered hmac imei key nonce reply ([auth], judge data) ↔
          (judge data = some .connection ↔ reply.Denies) := and_iff_right ⟨auth, hbuild, rfl⟩
      simp only [Except.map, List.nil_append, hread, hresult, hunderstood]
      exact ⟨fun h ↦ ⟨hcut, ⟨auth, rfl⟩, h⟩, fun h ↦ h.2.2⟩
  · rw [authenticate_unparsed hnone]
    refine iff_of_false (fun h ↦ ?_) fun h ↦ hcut h.1
    obtain ⟨auth, -, hauth⟩ := h.1
    exact absurd hauth (by simp)

def sevens : Nonce := ⟨List.replicate 16 7, rfl⟩

theorem handshake_answered_iff_whole :
    Answered .echo (lit "A") [1] sevens (.deny (lit "unauthorized"))
        (handshake .echo (lit "A") (some [1]) [Ingest.challengeFrame sevens] [Ingest.denyFrame]) ↔
      [Ingest.challengeFrame sevens] = [Ingest.challengeFrame sevens] ∧
        (Ascii (lit "A") ∧ (lit "A").length ≤ 65465) ∧
        (Reply.Denies (.deny (lit "unauthorized")) → Whole Ingest.denyFrame [Ingest.denyFrame]) :=
  handshake_answered_iff rfl (by simp) (by simp) (by decide) (by decide)

/-- A challenge whose length prefix comes ahead of the rest is not answered, and a DENY
that comes so is not noticed. -/
theorem handshake_misses_cut :
    [(Ingest.challengeFrame sevens).take 2, (Ingest.challengeFrame sevens).drop 2].flatten =
        Ingest.challengeFrame sevens ∧
      [Ingest.denyFrame.take 2, Ingest.denyFrame.drop 2].flatten = Ingest.denyFrame ∧
      ¬Answered .echo (lit "A") [1] sevens (.deny (lit "unauthorized"))
        (handshake .echo (lit "A") (some [1])
          [(Ingest.challengeFrame sevens).take 2,
            (Ingest.challengeFrame sevens).drop 2] [Ingest.denyFrame]) ∧
      ¬Answered .echo (lit "A") [1] sevens (.deny (lit "unauthorized"))
        (handshake .echo (lit "A") (some [1]) [Ingest.challengeFrame sevens]
          [Ingest.denyFrame.take 2, Ingest.denyFrame.drop 2]) := by
  refine ⟨rfl, rfl, fun h ↦ ?_, fun h ↦ ?_⟩
  · have hsilent : (handshake .echo (lit "A") (some [1])
        [(Ingest.challengeFrame sevens).take 2,
          (Ingest.challengeFrame sevens).drop 2] [Ingest.denyFrame]).1 = [] := by
      decide
    obtain ⟨auth, -, hwritten⟩ := h.1
    rw [hsilent] at hwritten
    cases hwritten
  · exact absurd (h.2.mpr trivial) (by decide)

end Chunks

end OpusFleet.Sim
