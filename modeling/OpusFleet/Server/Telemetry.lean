import OpusFleet.Python.Loads
import OpusFleet.Server.Api
import OpusFleet.Server.Dispatch
import OpusFleet.Server.Messages

namespace OpusFleet.Server

open Python Library Library.Rfc8259 Protocol

def jdump (value : Value) : Bytes := encode (dumps (lit ",") (lit ":") value)

def encoded : Except JsonError Str → Except Exc Bytes
  | .ok text => .ok (encode text)
  | .error .value => .error .value
  | .error .recursion => .error .recursion

/-- `bus.jdump` with the room that the interpreter leaves it. -/
def jdumpWithin (limit : ℕ) (value : Value) : Except Exc Bytes :=
  encoded (dumpsWithin (lit ",") (lit ":") limit value)

def Payload.bytes : Payload → Bytes
  | .raw bytes => bytes
  | .json value => jdump value

/-- A JSON text in UTF-8. -/
def ValidJson (bytes : Bytes) : Prop := ∃ text, decode bytes = some text ∧ JsonText text

/-- The entries of a report with the server's `at` and `imei` written over its own. -/
abbrev stamped (imei : Str) (entries : List (Str × Value)) (t : Value) : List (Str × Value) :=
  Assoc.set (Assoc.set entries (lit "at") t) (lit "imei") (.str imei)

/-- No value of the report holds a NaN or an infinity, but for those that are written over. -/
def Clean (entries : List (Str × Value)) : Prop :=
  ∀ k v, Assoc.get entries k = some v → k ≠ lit "at" → k ≠ lit "imei" → finite v = true

/-- `json.dumps` with `limit` levels writes the report, for all the values that are not written
over, with two more levels around it. -/
def Roomy (limit : ℕ) (entries : List (Str × Value)) : Prop :=
  3 ≤ limit ∧ ∀ k v, Assoc.get entries k = some v → k ≠ lit "at" → k ≠ lit "imei" →
  Writable (limit - 3) v

namespace Api

def Device.view (d : Device) : Value :=
  .dict [(lit "imei", .str d.imei), (lit "online", .bool d.online), (lit "frames", .int d.frames),
    (lit "bytes", .int d.bytes), (lit "segments_uploaded", .int d.segmentsUploaded),
    (lit "last_seen", d.lastSeen), (lit "signal", d.signal)]

def devices (state : State) : Value := .list (state.entries.map fun e ↦ e.2.view)

def send (limit : ℕ) (obj : Value) : Except Exc Bytes :=
  encoded (dumpsWithin (lit ", ") (lit ": ") limit obj)

/-- The request is answered, with JSON. -/
def Answers (limit : ℕ) (obj : Value) : Prop := ∃ body, send limit obj = .ok body ∧ ValidJson body

/-- The name under which the API files a report of `imei`. -/
def filedUnder (imei : Str) : Str := if imei = [] then lit "unknown" else imei

def unreported (state : State) (id : Str) : State :=
  state.set id { device state id with lastSeen := .none, signal := .none }

end Api

section Encoding

variable {a b : Str}

theorem validJson_dumps_iff (ha : Blank a) (hb : Blank b)
    (hascii : Ascii (44 :: a) ∧ Ascii (58 :: b)) (v : Value) :
    ValidJson (encode (dumps (44 :: a) (58 :: b) v)) ↔ finite v = true := by
  have hdecode := decode_encode (dumps_ascii hascii.1 hascii.2 v)
  rw [← jsonText_dumps_iff ha hb, ValidJson, hdecode]
  constructor
  · rintro ⟨text, htext, hvalid⟩
    obtain rfl := Option.some.inj htext
    exact hvalid
  · exact fun h ↦ ⟨_, rfl, h⟩

theorem validJson_jdump_iff (v : Value) : ValidJson (jdump v) ↔ finite v = true :=
  validJson_dumps_iff blank_nil blank_nil (by decide) v

theorem encoded_iff {x : Except JsonError Str} {bytes : Bytes} :
    encoded x = .ok bytes ↔ ∃ text, x = .ok text ∧ encode text = bytes := by
  rcases x with _ | _
  · next e => cases e <;> simp [encoded]
  · simp [encoded]

theorem jdumpWithin_iff {limit : ℕ} {v : Value} {bytes : Bytes} :
    jdumpWithin limit v = .ok bytes ↔ Writable limit v ∧ jdump v = bytes := by
  simp [jdumpWithin, encoded_iff, dumpsWithin_iff, jdump, and_assoc]

theorem send_iff {limit : ℕ} {v : Value} {body : Bytes} (h : Api.send limit v = .ok body) :
    ValidJson body ↔ finite v = true := by
  have hspace : Blank [32] := List.forall_mem_singleton.mpr (.inl rfl)
  obtain ⟨text, htext, rfl⟩ := encoded_iff.mp h
  obtain ⟨-, rfl⟩ := (dumpsWithin_iff _ _ _).mp htext
  exact validJson_dumps_iff hspace hspace (by decide) v

theorem send_ok_iff {limit : ℕ} {v : Value} :
    (∃ body, Api.send limit v = .ok body) ↔ Writable limit v := by
  simp [Api.send, encoded_iff, dumpsWithin_iff]

theorem answers_iff {limit : ℕ} {v : Value} :
    Api.Answers limit v ↔ Writable limit v ∧ finite v = true := by
  rw [← send_ok_iff]
  constructor
  · intro ⟨body, hbody, hvalid⟩
    exact ⟨⟨body, hbody⟩, (send_iff hbody).mp hvalid⟩
  · intro ⟨⟨body, hbody⟩, hfinite⟩
    exact ⟨body, hbody, (send_iff hbody).mpr hfinite⟩

theorem finiteList_iff {xs : List Value} : finiteList xs = true ↔ ∀ v ∈ xs, finite v = true := by
  induction xs with
  | nil => simp [finiteList]
  | cons v xs ih => simp [finiteList, ih]

theorem finiteDict_iff {es : List (Str × Value)} :
    finiteDict es = true ↔ ∀ e ∈ es, finite e.2 = true := by
  induction es with
  | nil => simp [finiteDict]
  | cons e es ih => simp [finiteDict, ih]

end Encoding

section Report

variable {limit : ℕ} {payload : Bytes} {imei : Str} {entries : List (Str × Value)}

theorem jload_jdump {v : Value} (h : Json.Loadable limit v) :
    Api.jload limit (.raw (jdump v)) = .ok v := by
  have hascii : Ascii (dumps (lit ",") (lit ":") v) := dumps_ascii (by decide) (by decide) v
  have hloads : loads limit (dumps (lit ",") (lit ":") v) = .ok v :=
    loads_dumps blank_nil blank_nil h
  simp only [Api.jload, jdump, decode_encode hascii, hloads]

theorem classify_stat_loadable {v : Value} (h : classify limit payload = .ok (.stat v)) :
    Json.Loadable limit v := by
  unfold classify at h
  split at h
  · cases h
  split at h
  · cases hp : parseAuth payload <;> simp [hp, Except.map] at h
  split at h
  · cases hp : parseStat limit (payload.drop statPrefix.length) with
    | error e => simp [hp, Except.map] at h
    | ok w =>
      obtain rfl : w = v := by simpa [hp, Except.map] using h
      rw [parseStat] at hp
      split at hp
      · cases hp
      · next text htext =>
        cases hloads : loads limit text with
        | ok u =>
          rw [hloads] at hp
          exact Except.ok.inj hp ▸ loads_loadable (decode_points htext) hloads
        | error e =>
          rw [hloads] at hp
          cases e <;> cases hp
  · cases h

theorem report_distinct (hentries : (entries.map Prod.fst).Nodup) (t : Value) :
    ((stamped imei entries t).map Prod.fst).Nodup :=
  Dict.nodup_set (Dict.set ⟨entries, hentries⟩ (lit "at") t) _ _

theorem report_forall_iff (hentries : (entries.map Prod.fst).Nodup) {t : Value}
    {P : Value → Prop} (ht : P t) (himei : P (.str imei)) :
    (∀ e ∈ stamped imei entries t, P e.2) ↔
      ∀ k v, Assoc.get entries k = some v → k ≠ lit "at" → k ≠ lit "imei" → P v := by
  have hdistinct : ((stamped imei entries t).map Prod.fst).Nodup := report_distinct hentries t
  constructor
  · intro h k v hget hat hname
    refine h (k, v) ((Assoc.get_iff_mem hdistinct k v).mp ?_)
    rw [Assoc.get_set_ne _ _ hname, Assoc.get_set_ne _ _ hat, hget]
  · intro h e he
    have hget := (Assoc.get_iff_mem hdistinct e.1 e.2).mpr he
    rw [Assoc.get_set, Assoc.get_set] at hget
    split at hget
    · exact Option.some.inj hget ▸ himei
    · next hname =>
      split at hget
      · exact Option.some.inj hget ▸ ht
      · next hat => exact h e.1 e.2 hget hat hname

variable (imei) in
theorem finite_report_iff (hentries : (entries.map Prod.fst).Nodup) {t : Value}
    (ht : finite t = true) :
    finite (.dict (stamped imei entries t)) = true ↔ Clean entries := by
  rw [finite, finiteDict_iff, Clean]
  exact report_forall_iff hentries (P := fun v ↦ finite v = true) ht rfl

variable (imei) in
theorem writable_report_iff (hentries : (entries.map Prod.fst).Nodup) {t : Value}
    (ht : ∀ n, Writable n t) :
    Writable limit (.dict (stamped imei entries t)) ↔ 0 < limit ∧
      ∀ k v, Assoc.get entries k = some v → k ≠ lit "at" → k ≠ lit "imei" → Writable
        (limit - 1) v := by
  rw [Writable, writableDict_iff]
  exact and_congr_right fun _ ↦ report_forall_iff hentries
    (P := Writable (limit - 1)) (ht _) trivial

theorem stamped_loadable {t : Value} (himei : Ascii imei)
    (hentries : Json.Loadable limit (.dict entries))
    (ht : ∀ n, Json.Loadable n t) : Json.Loadable limit (.dict (stamped imei entries t)) := by
  obtain ⟨hlimit, hkeys, hvalues⟩ := hentries
  have hat : Json.LoadableDict (limit - 1) (Assoc.set entries (lit "at") t) :=
    Json.loadableDict_set hvalues (.of_ascii (by decide)) (ht _)
  exact ⟨hlimit, report_distinct hkeys t,
    Json.loadableDict_set hat (.of_ascii (by decide)) (.of_ascii himei)⟩

theorem report_writable (h : Json.Loadable limit (.dict entries)) {t : Value}
    (ht : ∀ n, Writable n t) :
    Writable limit (.dict (stamped imei entries t)) := by
  obtain ⟨hpos, hvalues⟩ := h.writable
  refine (writable_report_iff imei h.2.1 ht).mpr ⟨hpos, fun k v hget _ _ ↦ ?_⟩
  exact writableDict_iff.mp hvalues (k, v) ((Assoc.get_iff_mem h.2.1 k v).mp hget)

end Report

section Listing

variable {limit : ℕ} {state : Api.State} {imei : Str} {entries : List (Str × Value)}

def Api.Device.Shown (limit : ℕ) (d : Device) : Prop :=
  Writable (limit - 1) d.view ∧ finite d.view = true

theorem answers_devices_iff : Api.Answers limit (Api.devices state) ↔
    0 < limit ∧ ∀ id d, state.get id = some d → d.Shown limit := by
  rw [answers_iff, Api.devices, Writable, finite, writableList_iff, finiteList_iff]
  simp only [List.forall_mem_map, and_assoc, Api.Device.Shown]
  refine and_congr_right fun _ ↦ ?_
  constructor
  · intro h id d hget
    have hmem := (Assoc.get_iff_mem state.nodup id d).mp hget
    exact ⟨h.1 _ hmem, h.2 _ hmem⟩
  · intro h
    have hall (e) (he : e ∈ state.entries) :=
      h e.1 e.2 ((Assoc.get_iff_mem state.nodup e.1 e.2).mpr he)
    exact ⟨fun e he ↦ (hall e he).1, fun e he ↦ (hall e he).2⟩

theorem answers_set_iff (id : Str) (d : Api.Device) :
    Api.Answers limit (Api.devices (state.set id d)) ↔
      0 < limit ∧ d.Shown limit ∧ ∀ id' d', id' ≠ id → state.get id' = some d' →
      d'.Shown limit := by
  rw [answers_devices_iff]
  refine and_congr_right fun _ ↦ ?_
  constructor
  · intro h
    refine ⟨h id d (Dict.get_set_self _ _ _), fun id' d' hid hget ↦ ?_⟩
    exact h id' d' ((Dict.get_set_ne _ _ hid).trans hget)
  · intro ⟨hd, hrest⟩ id' d' hget
    rw [Dict.get_set] at hget
    split at hget
    · exact Option.some.inj hget ▸ hd
    · next hid => exact hrest id' d' hid hget

/-- A device with a report can be listed if it could be without, and the
report is clean and leaves room. -/
theorem shown_report_iff (hentries : (entries.map Prod.fst).Nodup) {t : Value}
    (ht : ∀ n, Writable n t) (hfinite : finite t = true) (d : Api.Device) :
    { d with
        signal := .dict (stamped imei entries t)
        lastSeen := t }.Shown limit ↔
      Clean entries ∧ Roomy limit entries ∧ { d with lastSeen := .none, signal :=
        .none }.Shown limit := by
  have hroomy : Writable (limit - 1 - 1) (.dict (stamped imei entries t)) ↔
      Roomy limit entries := by
    rw [writable_report_iff imei hentries ht, Roomy, Nat.sub_sub, Nat.sub_sub]
    exact and_congr_left fun _ ↦ by omega
  rw [← finite_report_iff imei hentries hfinite, ← hroomy]
  simp only [Api.Device.Shown, Api.Device.view, Writable, WritableDict, finite, finiteDict, ht,
    hfinite, Bool.and_true, Bool.true_and, true_and, and_true]
  tauto

theorem consume_report (depth : ℕ) (now : Time) (state : Api.State) (t : Value) {bytes : Bytes}
    (hload : Api.jload limit (.raw bytes) =
      .ok (.dict (stamped imei entries t))) :
    Api.consume depth limit now state ⟨.stat, encode imei, .raw bytes⟩ =
      some (state.set (Api.filedUnder imei) { Api.device state (Api.filedUnder imei) with
        signal := .dict (stamped imei entries t)
        lastSeen := t }) := by
  have hat : Assoc.get (stamped imei entries t) (lit "at") = some t := by
    rw [Assoc.get_set_ne _ _ (by decide), Assoc.get_set_self]
  have himei : Api.imeiOf (stamped imei entries t) (encode imei) =
      some (Api.filedUnder imei) := by
    rw [Api.imeiOf, Assoc.get_set_self]
    cases imei with
    | nil => rfl
    | cons c cs => rfl
  simp only [Api.consume, hload, himei, Option.bind_some, Api.update, hat, Option.getD_some,
    Option.map_some]

end Listing

section Frames

variable (env : Env) (peer : Peer) (authed : Bool) (ing : Ingest) (imei : Str) {payload : Bytes}
  {entries : List (Str × Value)}

theorem dispatch_stat (h : classify env.limit payload = .ok (.stat (.dict entries))) :
    (ing.dispatch env peer authed imei payload).1.calls =
      ing.calls ++ [⟨.stat, imei, Ingest.statReport imei entries (ing.stamp env)⟩] := by
  simp only [Ingest.dispatch, h]
  exact (produce_produced ing.tick .stat imei _).calls

/-- What a report makes of the fleet. It is put on its topic, and the message is JSON
exactly if the report is clean; once the API has loaded it, the listing of the fleet is
answered with JSON exactly if the report also leaves room for the two levels of the listing,
and the listing without it would be. -/
theorem telemetry_valid_iff (h : classify env.limit payload = .ok (.stat (.dict entries))) :
    ∃ report bytes, (ing.dispatch env peer authed imei payload).1.calls =
      ing.calls ++ [⟨.stat, imei, .json report⟩] ∧
      jdumpWithin env.limit report = .ok bytes ∧ (ValidJson bytes ↔ Clean entries) ∧
      ∀ depth limit room now state, Api.jload limit (.raw bytes) = .ok report →
        ∃ state', Api.consume depth limit now state ⟨.stat, encode imei, .raw bytes⟩ = some state' ∧
          (Api.Answers room (Api.devices state') ↔ Clean entries ∧ Roomy room entries ∧
            Api.Answers room (Api.devices (Api.unreported state (Api.filedUnder imei)))) := by
  have hload := classify_stat_loadable h
  have hstamp : ∀ n, Writable n (ing.stamp env) := fun _ ↦ trivial
  refine ⟨_, jdump (.dict (stamped imei entries (ing.stamp env))),
    dispatch_stat env peer authed ing imei h,
    ?_, ?_, fun depth limit room now state hjload ↦ ?_⟩
  · exact jdumpWithin_iff.mpr ⟨report_writable hload hstamp, rfl⟩
  · exact (validJson_jdump_iff _).trans (finite_report_iff _ hload.2.1 rfl)
  · refine ⟨_, consume_report depth now state _ hjload, ?_⟩
    rw [Api.unreported, answers_set_iff, answers_set_iff, shown_report_iff hload.2.1 hstamp rfl]
    tauto

def reading (num : Str) : Bytes := statPrefix ++ encode (lit "\x7b\"t\":" ++ (num ++ lit "\x7d"))

theorem classify_reading {num : Str} {v : Value} (hascii : Ascii num)
    (hnum : Json.tokenize (num ++ lit "\x7d") = [.scalar v, .closeDict]) :
    classify 1000 (reading num) = .ok (.stat (.dict [(lit "t", v)])) := by
  have hdecode : decode (encode (lit "\x7b\"t\":" ++ (num ++ lit "\x7d"))) =
      some (lit "\x7b\"t\":" ++ (num ++ lit "\x7d")) :=
    decode_encode (ascii_append.mpr ⟨by decide, ascii_append.mpr ⟨hascii, by decide⟩⟩)
  have hname : Json.scanString (lit "t" ++ lit "\":" ++ (num ++ lit "\x7d")) =
      some (lit "t", lit ":" ++ (num ++ lit "\x7d")) := rfl
  have htokens : Json.tokenize (lit "\x7b\"t\":" ++ (num ++ lit "\x7d")) =
      [.openDict, .string (lit "t"), .colon, .scalar v, .closeDict] := by
    rw [← hnum]
    exact Json.tokenize_member hname rfl
  rw [reading, classify_stat_frame, parseStat, hdecode]
  simp only [loads, htokens]
  rfl

theorem classify_five :
    classify 1000 (reading (lit "5")) = .ok (.stat (.dict [(lit "t", .int 5)])) := by
  have hnum : Json.scanToken 53 (lit "\x7d") = (.scalar (.int 5), lit "\x7d") := rfl
  have hclose : Json.tokenize (lit "\x7d") = [.closeDict] := Json.tokenize_last rfl rfl
  have hfive : Json.tokenize (lit "5" ++ lit "\x7d") = [.scalar (.int 5), .closeDict] := by
    rw [Json.tokenize_cons rfl hnum, hclose]
  exact classify_reading (by decide) hfive

theorem zero_loadable (n : ℕ) : Json.Loadable n (.float (.finite 0)) :=
  ⟨⟨0, 0, by decide, by decide, by norm_num⟩, by norm_num⟩

theorem zero_writable {n : ℕ} : Writable n (.int 0) := by
  rw [Writable]
  decide

theorem telemetry_valid_iff_five :
    ∃ report bytes, ((Ingest.init 64 120).dispatch (Env.calm .optional) ⟨lit "10.0.0.1", []⟩
        false (lit "A") (reading (lit "5"))).1.calls = [⟨.stat, lit "A", .json report⟩] ∧
      jdumpWithin 1000 report = .ok bytes ∧ ValidJson bytes ∧
      ∃ state, Api.consume 10 1000 0 .empty ⟨.stat, encode (lit "A"), .raw bytes⟩ = some state ∧
        Api.Answers 3 (Api.devices state) ∧ ¬ Api.Answers 2 (Api.devices state) := by
  obtain ⟨report, bytes, hcalls, hbytes, hvalid, hlisting⟩ :=
    telemetry_valid_iff (Env.calm .optional)
      ⟨lit "10.0.0.1", []⟩ false (Ingest.init 64 120) (lit "A") classify_five
  have hentry : ∀ k v, Assoc.get [(lit "t", Value.int 5)] k = some v → v = .int 5 := by
    intro k v hget
    rw [Assoc.get_iff_mem (by simp), List.mem_singleton] at hget
    exact (Prod.mk.inj hget).2
  have hclean : Clean [(lit "t", .int 5)] := fun k v hget _ _ ↦ hentry k v hget ▸ rfl
  have hroomy : Roomy 3 [(lit "t", .int 5)] := by
    refine ⟨le_rfl, fun k v hget _ _ ↦ ?_⟩
    rw [hentry k v hget, Writable]
    decide
  obtain rfl : report = .dict (stamped (lit "A") [(lit "t", .int 5)] (.float (.finite 0))) := by
    have hsame :=
      hcalls.symm.trans (dispatch_stat (Env.calm .optional) ⟨lit "10.0.0.1",
        []⟩ false _ (lit "A") classify_five)
    rw [List.append_cancel_left_eq, List.singleton_inj, Ingest.statReport, Call.mk.injEq,
      Payload.json.injEq] at hsame
    exact hsame.2.2
  obtain ⟨-, rfl⟩ := jdumpWithin_iff.mp hbytes
  have hload :=
    jload_jdump (stamped_loadable (by decide : Ascii (lit "A"))
      (classify_stat_loadable classify_five) zero_loadable)
  obtain ⟨state, hstate, hthree⟩ := hlisting 10 1000 3 0 .empty hload
  obtain ⟨state', hstate', htwo⟩ := hlisting 10 1000 2 0 .empty hload
  obtain rfl : state = state' := Option.some.inj (hstate.symm.trans hstate')
  refine ⟨_, _, hcalls, hbytes, hvalid.mpr hclean, state, hstate,
    hthree.mpr ⟨hclean, hroomy, ?_⟩, fun h ↦ ?_⟩
  · refine answers_iff.mpr ⟨⟨by decide, ⟨by decide, trivial, trivial, ?_⟩, trivial⟩, rfl⟩
    exact ⟨zero_writable, zero_writable, zero_writable, trivial, trivial, trivial⟩
  · exact absurd (htwo.mp h).2.1.1 (by decide)

/-- A device reports the number 1e999, which JSON allows: the message
and the listing say `Infinity`. -/
theorem infinity_spreads :
    ValidJson (encode (lit "\x7b\"t\":" ++ (lit "1e999" ++ lit "\x7d"))) ∧
    ∃ report bytes, ((Ingest.init 64 120).dispatch (Env.calm .optional) ⟨lit "10.0.0.1", []⟩
        false (lit "A") (reading (lit "1e999"))).1.calls = [⟨.stat, lit "A", .json report⟩] ∧
      jdumpWithin 1000 report = .ok bytes ∧ ¬ ValidJson bytes ∧
      ∃ state body,
        Api.consume 10 1000 0 .empty ⟨.stat, encode (lit "A"), .raw bytes⟩ = some state ∧
        Api.send 1000 (Api.devices state) = .ok body ∧ ¬ ValidJson body := by
  constructor
  · have hnumber : Number (lit "1e999") := .plain <| .mk
      (.digits (by decide) (by decide) (List.forall_mem_nil _)) .absent
      (.digits (.inl rfl) (.inl rfl) (by decide) (by decide))
    have hname : Quoted (lit "\"t\"") :=
      .mk (.plain (by decide) (by decide) (by decide) (by decide) .nil)
    have hobject :=
      Json.object (.member blank_nil hname blank_nil blank_nil (.number hnumber) blank_nil)
    exact ⟨_, decode_encode (by decide), hobject.text⟩
  · have hnum :
        Json.scanToken 49 (lit "e999\x7d") = (.scalar (.float (.inf false)), lit "\x7d") := rfl
    have hclose : Json.tokenize (lit "\x7d") = [.closeDict] := Json.tokenize_last rfl rfl
    have htokens : Json.tokenize (lit "1e999" ++ lit "\x7d") =
        [.scalar (.float (.inf false)), .closeDict] := by
      rw [Json.tokenize_cons rfl hnum, hclose]
    have hclassify := classify_reading (by decide) htokens
    have hstamp (n : ℕ) : Writable n (.float (.finite 0)) := trivial
    have hloadable := classify_stat_loadable hclassify
    have hdirty : ¬ Clean [(lit "t", .float (.inf false))] := by
      intro hclean
      have h := hclean (lit "t") _ rfl (by decide) (by decide)
      simp [finite] at h
    have hreport :=
      (finite_report_iff (lit "A") hloadable.2.1 (rfl : finite (.float (.finite 0)) =
        true)).not.mpr hdirty
    have hload :=
      jload_jdump (stamped_loadable (by decide : Ascii (lit "A")) hloadable zero_loadable)
    have hwritable :
      Writable 1000 (Api.devices (Dict.empty.set (lit "A") { Api.device .empty (lit "A") with
        signal := .dict (stamped (lit "A") [(lit "t", .float (.inf false))] (.float (.finite 0)))
        lastSeen := .float (.finite 0) })) := by
      refine ⟨by decide, ⟨by decide, trivial, trivial, ?_⟩, trivial⟩
      exact ⟨zero_writable, zero_writable, zero_writable, trivial,
        ⟨by decide, trivial, trivial, trivial, trivial⟩, trivial⟩
    obtain ⟨body, hbody⟩ := send_ok_iff.mpr hwritable
    refine ⟨_, _, dispatch_stat _ _ _ _ _ hclassify,
      jdumpWithin_iff.mpr ⟨report_writable hloadable hstamp, rfl⟩,
      (validJson_jdump_iff _).not.mpr hreport, _, body, consume_report _ _ _ _ hload, hbody, ?_⟩
    rw [send_iff hbody]
    decide

end Frames

end OpusFleet.Server
