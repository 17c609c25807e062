import OpusFleet.Server.Messages
import OpusFleet.Server.Registry
import OpusFleet.Server.Sessions
import OpusFleet.Sim.Device

namespace OpusFleet.Server

open Python Library Protocol Auth

section Reply

variable (hmac : Hmac) (id : Str) (key : Bytes) (nonce : Nonce)

theorem sign_clean (nonce : Bytes) : DeviceMessage.Clean (sign hmac key nonce) ∧
    (sign hmac key nonce).length = macHexLen := by
  have hlen : (sign hmac key nonce).length = macHexLen := by
    rw [sign, hex_length, hmac.digest_length]
    rfl
  refine ⟨⟨hex_ascii _, ?_, strip_hex _⟩, hlen⟩
  intro h
  simp [h, macHexLen] at hlen

theorem verify_sign (hkey : key ≠ []) (nonce : Bytes) :
    verify hmac key nonce (sign hmac key nonce) = true := by
  obtain ⟨⟨-, hne, hstrip⟩, hlen⟩ := sign_clean hmac key nonce
  refine (verify_iff hmac key nonce _).mpr ⟨hkey, hne, hlen, ?_⟩
  rw [hstrip, sign, lower_hex]

theorem challengeFrame_frames :
    iterFrames (Ingest.challengeFrame nonce) = ([buildChallenge nonce.1], []) := by
  have hlen : (buildChallenge nonce.1).length ≤ maxFrame := by
    have hn := nonce.2
    simp only [buildChallenge, encode_ascii (hex_ascii _), List.length_append, List.length_map,
      hex_length, hn, challengePrefix, ascii, maxFrame, nonceBytes]
    decide
  simpa [Ingest.challengeFrame] using iterFrames_frame hlen []

theorem parseChallenge_buildChallenge (nonce : Bytes) :
    parseChallenge (buildChallenge nonce) = .ok nonce := by
  simp only [parseChallenge, buildChallenge, List.drop_left, encode_ascii (hex_ascii _),
    decodeAscii_ascii (hex_ascii _), Option.bind_some, fromHex_hex]

def authPayload (nonce : Bytes) : Bytes :=
  authPrefix ++ (id ++ lit ":" ++ sign hmac key nonce).map UInt8.ofNat

theorem authenticate_reply {reply : Bytes}
    (h : Sim.authenticate hmac id (some key) (Ingest.challengeFrame nonce) = .ok (some reply)) :
    Ascii id ∧ reply = encodeFrame (authPayload hmac id key nonce.1) ∧
      (authPayload hmac id key nonce.1).length ≤ maxFrame := by
  have hstarts : startsWith (buildChallenge nonce.1) challengePrefix = true := startsWith_append _ _
  simp only [Sim.authenticate, challengeFrame_frames, hstarts, if_true,
    parseChallenge_buildChallenge] at h
  change (buildAuth id (sign hmac key nonce.1) >>= fun auth ↦ frame auth >>= fun wire ↦
    pure (some wire)) = .ok (some reply) at h
  by_cases hascii : Ascii (id ++ lit ":" ++ sign hmac key nonce.1)
  · have hbuild : buildAuth id (sign hmac key nonce.1) = .ok (authPayload hmac id key nonce.1) := by
      rw [buildAuth, encodeAscii_eq hascii]
      rfl
    rw [hbuild] at h
    change (frame (authPayload hmac id key nonce.1) >>= fun wire ↦ pure (some wire)) =
      .ok (some reply)
      at h
    by_cases hlen : (authPayload hmac id key nonce.1).length ≤ maxFrame
    · rw [frame_eq_ok hlen] at h
      refine ⟨(ascii_append.mp (ascii_append.mp hascii).1).1, ?_, hlen⟩
      exact (Option.some.inj (Except.ok.inj h)).symm
    · rw [frame, if_pos (by omega)] at h
      cases h
  · rw [buildAuth, encodeAscii_error hascii] at h
    cases h

end Reply

section Accepts

variable (env : Env) (registry : Registry) (link : Link) {id : Str} {key : Bytes} (leftover : Bytes)

theorem checkFrame_claimed (hid : Ascii id) {accepted : Ingest.Accepted}
    (h : Ingest.checkFrame env registry link.nonce link.peer
      (authPayload env.hmac id key link.nonce.1) leftover = .ok accepted) :
    accepted.claimed = some (strip (id.takeWhile (· != 58))) := by
  have hmac := (sign_clean env.hmac key link.nonce.1).1.1
  simp only [Ingest.checkFrame, authPayload, classify_auth_frame, parseAuth_frame hid hmac] at h
  split at h
  · next hc =>
    split at hc <;> simp [Except.map] at hc
    simp at h
  · next deviceId mac hc =>
    split at hc
    · simp [Except.map] at hc
    · obtain ⟨rfl, -⟩ : _ = deviceId ∧ _ = mac := by simpa [Except.map] using hc
      split at h
      · simp at h
      · split at h
        · obtain rfl := Except.ok.inj h
          rfl
        · simp at h
  · next kind hnot hc =>
    split at hc
    · simp [Except.map] at hc
    · obtain rfl := Except.ok.inj hc
      exact absurd rfl (hnot _ _)

theorem checkFrame_accepts (hid : Ascii id) (hne : id ≠ []) (hkey : key ≠ [])
    (hheld : registry id = .ok (some key)) (hcolon : 58 ∉ id) (hstrip : strip id = id) :
    Ingest.checkFrame env registry link.nonce link.peer
      (authPayload env.hmac id key link.nonce.1) leftover = .ok ⟨some id, true, leftover⟩ := by
  obtain ⟨⟨hmac, hne', hstrip'⟩, -⟩ := sign_clean env.hmac key link.nonce.1
  have hparse := parseAuth_clean hid hmac hcolon hne hne' hstrip hstrip'
  simp only [Ingest.checkFrame, authPayload, classify_auth_frame, hparse, Except.map, hheld,
    Option.getD_some, verify_sign env.hmac key hkey, if_true]

theorem okFrame_eq (hid : Ascii id) (hlen : id.length + okPrefix.length ≤ maxFrame) :
    Ingest.okFrame id = .ok (encodeFrame (okPrefix ++ id.map UInt8.ofNat)) := by
  have hfits : (okPrefix ++ id.map UInt8.ofNat).length ≤ maxFrame := by
    rw [List.length_append, List.length_map]
    omega
  rw [Ingest.okFrame, buildOk, encodeAscii_eq hid]
  exact frame_eq_ok hfits

theorem takeWhile_strip_eq (h : strip (id.takeWhile (· != 58)) = id) : 58 ∉ id ∧ strip id = id := by
  have hle := strip_length_le (id.takeWhile (· != 58))
  rw [h] at hle
  have hwhole : id.takeWhile (· != 58) = id :=
    (List.takeWhile_prefix _).eq_of_length_le hle
  rw [hwhole] at h
  refine ⟨fun hmem ↦ ?_, h⟩
  rw [← hwhole] at hmem
  simpa using List.mem_takeWhile_imp hmem

end Accepts

section Completes

variable (env : Env) (r : DeviceRegistry) (file : Option KeyFile) (link : Link) (ing : Ingest)
  {id : Str} {key reply : Bytes}

/-- A device that holds the key the registry has for its id is let in under that id, with OK,
if and only if its id has no ':' and no outer white space. -/
theorem handshake_completes_iff (more : Bytes) (hmode : env.mode ≠ .disabled) (hid : id ≠ [])
    (hkey : key ≠ []) (hheld : (r.get env.limit file id).2 = .ok (some key))
    (hreply : Sim.authenticate env.hmac id (some key) (Ingest.challengeFrame link.nonce) =
      .ok (some reply))
    (hstream : link.chunks.flatten = reply ++ more) (hchunks : ∀ c ∈ link.chunks, c ≠ [])
    (hchallenge : link.challengeDrains = true) (hok : link.okDrains = true) :
    (∃ leftover chunks sent, Ingest.okFrame id = .ok sent ∧
      ing.handshake env (r.view env.limit file) link =
        (ing, Ingest.challengeFrame link.nonce ++ sent, .ok (⟨some id, true, leftover⟩, chunks))) ↔
      58 ∉ id ∧ strip id = id := by
  obtain ⟨hascii, rfl, hlen⟩ := authenticate_reply env.hmac id key link.nonce hreply
  obtain ⟨leftover, chunks, hread⟩ :=
    Ingest.readFrame_frame hlen link.ending link.chunks hchunks [] hstream
  constructor
  · intro h
    obtain ⟨leftover', chunks', sent, -, hshake⟩ := h
    obtain ⟨hdisabled, -⟩ | ⟨-, payload, rest, hread', hcheck⟩ :=
      handshake_ok env (r.view env.limit file) link ing hshake
    · exact absurd hdisabled hmode
    · rw [hread] at hread'
      obtain ⟨⟨rfl, rfl⟩, rfl⟩ : (_ = payload ∧ _ = rest) ∧ _ = chunks' := by simpa using hread'
      have hclaimed := checkFrame_claimed env (r.view env.limit file) link _ hascii hcheck
      exact takeWhile_strip_eq (Option.some.inj hclaimed).symm
  · intro ⟨hcolon, hstrip⟩
    have hcheck := checkFrame_accepts env (r.view env.limit file) link leftover
      hascii hid hkey hheld hcolon hstrip
    have hfits : id.length + okPrefix.length ≤ maxFrame := by
      have hprefix : okPrefix.length ≤ authPrefix.length := by decide
      simp only [authPayload, List.length_append, List.length_map] at hlen
      omega
    have hsent := okFrame_eq hascii hfits
    refine ⟨leftover, chunks, _, hsent, ?_⟩
    simp [Ingest.handshake, hmode, hchallenge, hread, hcheck, hsent, hok]

def keyFile (id : Str) : KeyFile := ⟨.ok 0, .ok (lit "\x7b\"" ++ id ++ lit "\":\"11\"\x7d")⟩

def keyed (id : Str) : DeviceRegistry :=
  (DeviceRegistry.load 1000 (lit "keys.json") [] (some (keyFile id))).1

theorem loadItems_keyFile {id : Str} (h : Json.scanString (id ++ lit "\":\"11\"\x7d") =
    some (id, lit ":\"11\"\x7d")) (hplain : Json.mergeSurrogates id = id) :
    loadItems 1000 .empty (lit "\x7b\"" ++ id ++ lit "\":\"11\"\x7d") =
      .ok (Dict.empty.set id [17]) := by
  have hvalue : lit "\":\"11\"\x7d" = lit "\":" ++ lit "\"11\"\x7d" := by decide
  have hkey : Json.scanToken 34 (lit "11\"\x7d") = (.string (lit "11"), lit "\x7d") := by rfl
  have hclose : Json.tokenize (lit "\x7d") = [.closeDict] := Json.tokenize_last rfl rfl
  have ht : Json.tokenize (lit "\x7b\"" ++ id ++ lit "\":\"11\"\x7d") =
      [.openDict, .string id, .colon, .string (lit "11"), .closeDict] := by
    rw [hvalue, ← List.append_assoc] at h ⊢
    rw [Json.tokenize_member h hplain, Json.tokenize_cons rfl hkey, hclose]
  simp only [loadItems, loads, ht]
  rfl

theorem keyed_eq {id : Str} (h : Json.scanString (id ++ lit "\":\"11\"\x7d") =
    some (id, lit ":\"11\"\x7d")) (hplain : Json.mergeSurrogates id = id) :
    keyed id = ⟨lit "keys.json", [], Dict.empty.set id [17], some 0⟩ := by
  have hitems := loadItems_keyFile h hplain
  have hpath : lit "keys.json" ≠ [] := by decide
  simp only [keyed, DeviceRegistry.load, DeviceRegistry.reload, DeviceRegistry.seen, keyFile, hpath,
    if_true, if_false, Bind.bind, Except.bind, hitems]

theorem keyed_get {id : Str} (h : Json.scanString (id ++ lit "\":\"11\"\x7d") =
    some (id, lit ":\"11\"\x7d")) (hplain : Json.mergeSurrogates id = id) :
    ((keyed id).get 1000 (some (keyFile id)) id).2 = .ok (some [17]) := by
  have hreload : (keyed id).maybeReload 1000 (some (keyFile id)) = (keyed id, .ok ()) := by
    rw [keyed_eq h hplain]
    rfl
  rw [DeviceRegistry.get, hreload, keyed_eq h hplain]
  simp

def answering (id : Str) : Link :=
  .lone [encodeFrame (authPayload .echo id [17] (List.replicate 16 0))]

theorem handshake_completes_iff_plain :
    ∃ leftover chunks sent, Ingest.okFrame (lit "A") = .ok sent ∧
      (Ingest.init 64 120).handshake (Env.calm .required)
        ((keyed (lit "A")).view 1000 (some (keyFile (lit "A")))) (answering (lit "A")) =
        (.init 64 120, Ingest.challengeFrame (answering (lit "A")).nonce ++ sent,
          .ok (⟨some (lit "A"), true, leftover⟩, chunks)) := by
  have hreply : Sim.authenticate .echo (lit "A") (some [17])
      (Ingest.challengeFrame (answering (lit "A")).nonce) =
        .ok (some (answering (lit "A")).chunks.flatten) := by decide +kernel
  refine (handshake_completes_iff (Env.calm .required) (keyed (lit "A")) (some (keyFile (lit "A")))
    (answering (lit "A")) (.init 64 120) [] (by decide) (by decide) (by decide)
    (keyed_get (by decide) (by decide)) hreply (List.append_nil _).symm (by decide +kernel) rfl
    rfl).mpr ?_
  decide

/-- A device "A:B" whose key is in the key file answers the challenge and is refused. -/
theorem provisioned_refused :
    ((keyed (lit "A:B")).get 1000 (some (keyFile (lit "A:B"))) (lit "A:B")).2 = .ok (some [17]) ∧
    Sim.authenticate .echo (lit "A:B") (some [17])
        (Ingest.challengeFrame (answering (lit "A:B")).nonce) =
      .ok (some (answering (lit "A:B")).chunks.flatten) ∧
    ((Ingest.init 64 120).handshake (Env.calm .required)
        ((keyed (lit "A:B")).view 1000 (some (keyFile (lit "A:B")))) (answering (lit "A:B"))).2.2 =
      .error (.auth (lit "rejected A from ('10.0.0.1', 40000): bad credentials")) := by
  refine ⟨keyed_get (by decide) (by decide), by decide +kernel, ?_⟩
  rw [keyed_eq (by decide) (by decide)]
  decide +kernel

end Completes

end OpusFleet.Server
