import OpusFleet.Server.Calls
import OpusFleet.Server.Telemetry

namespace OpusFleet.Server

open Python Library Library.Runs Library.Rfc8259 Protocol Auth

def Message.wire (m : Message) : Message := { m with value := .raw m.value.bytes }

def Payload.Loadable (limit : ℕ) : Payload → Prop
  | .raw _ => True
  | .json value => Json.Loadable limit value

/-- The clock reads floats. -/
def Env.Ticks (env : Env) : Prop := ∀ n, (PyFloat.finite (env.clock n)).Sound

section Codec

variable {limit : ℕ}

theorem jload_loadable {bytes : Bytes} {v : Value} (h : Api.jload limit (.raw bytes) = .ok v) :
    Json.Loadable limit v := by
  simp only [Api.jload] at h
  split at h
  · cases h
  · next text htext =>
    cases hloads : loads limit text with
    | ok w =>
      simp only [hloads, Except.ok.injEq] at h
      exact h ▸ loads_loadable (decode_points htext) hloads
    | error e =>
      rw [hloads] at h
      cases e <;> cases h

/-- `bus.jload` undoes `bus.jdump` on the values that can be loaded, and
these are all that it ever gives. -/
theorem jload_jdump_iff (limit : ℕ) (v : Value) :
    (Api.jload limit (.raw (jdump v)) = .ok v ↔ Json.Loadable limit v) ∧
      ((∃ bytes, Api.jload limit (.raw bytes) = .ok v) ↔ Json.Loadable limit v) :=
  ⟨⟨jload_loadable, jload_jdump⟩, fun ⟨_, h⟩ ↦ jload_loadable h, fun h ↦ ⟨_, jload_jdump h⟩⟩

theorem jload_wire {p : Payload} (h : p.Loadable limit) :
    Api.jload limit (.raw p.bytes) = Api.jload limit p := by
  cases p with
  | raw bytes => rfl
  | json v => exact jload_jdump h

/-- The API makes of the bytes on the wire what it makes of the messages. -/
theorem consumeState_wire (depth : ℕ) {ms : List Message} (h : ∀ m ∈ ms, m.value.Loadable limit)
    (clock : ℕ → Time) (state : Api.State) :
    Api.consumeState depth limit clock state (ms.map Message.wire) =
      Api.consumeState depth limit clock state ms := by
  induction ms generalizing clock state with
  | nil => rfl
  | cons m ms ih =>
    obtain ⟨hm, hms⟩ := List.forall_mem_cons.mp h
    have hconsume (state : Api.State) (now : Time) :
        Api.consume depth limit now state m.wire = Api.consume depth limit now state m := by
      simp only [Api.consume, Message.wire, jload_wire hm]
    have hsub : Api.subscribed m.wire = Api.subscribed m := rfl
    simp only [List.map_cons, Api.consumeState, hsub, hconsume, ih hms]

end Codec

section Calls

variable {env : Env} {peer : Peer} {imei : Str}

theorem connectEvent_loadable {limit : ℕ} {t : Value} (hlimit : 0 < limit) (himei : Ascii imei)
    (hpeer : Json.Unicode peer.text) (ht : ∀ n, Json.Loadable n t) :
    (Ingest.connectEvent imei peer t).Loadable limit := by
  have hword {s : Str} (hs : Ascii s) : Json.Unicode s := .of_ascii hs
  have hkeys : [lit "imei", lit "event", lit "addr", lit "at"].Nodup := by decide
  exact ⟨hlimit, hkeys, hword (by decide), hword himei, hword (by decide), hword (by decide),
    hword (by decide),
    hpeer, hword (by decide), ht _, trivial⟩

theorem disconnectEvent_loadable {limit : ℕ} {t : Value} (hlimit : 0 < limit) (himei : Ascii imei)
    (ht : ∀ n, Json.Loadable n t) : (Ingest.disconnectEvent imei t).Loadable limit := by
  have hword {s : Str} (hs : Ascii s) : Json.Unicode s := .of_ascii hs
  have hkeys : [lit "imei", lit "event", lit "at"].Nodup := by decide
  exact ⟨hlimit, hkeys, hword (by decide), hword himei, hword (by decide), hword (by decide),
    hword (by decide),
    ht _, trivial⟩

theorem statReport_loadable {limit : ℕ} {t : Value} {entries : List (Str × Value)}
    (himei : Ascii imei)
    (hentries : Json.Loadable limit (.dict entries)) (ht : ∀ n, Json.Loadable n t) :
    (Ingest.statReport imei entries t).Loadable limit := stamped_loadable himei hentries ht

theorem stamp_loadable (hticks : env.Ticks) (ing : Ingest) (limit : ℕ) :
    Json.Loadable limit (ing.stamp env) :=
  hticks ing.ticks

theorem utters_loadable (hticks : env.Ticks) (hlimit : 0 < env.limit)
    (hpeer : Json.Unicode peer.text) :
    Utters env peer fun call ↦ call.value.Loadable env.limit where
  connect ing _ himei := connectEvent_loadable hlimit himei hpeer (stamp_loadable hticks ing)
  disconnect ing _ himei := disconnectEvent_loadable hlimit himei (stamp_loadable hticks ing)
  stat ing _ _ _ himei hstat :=
    statReport_loadable himei (classify_stat_loadable hstat) (stamp_loadable hticks ing)
  audio _ _ _ := trivial

end Calls

section Runs

variable {env : Env}

theorem Payload.Loadable.mono {limit limit' : ℕ} (hle : limit ≤ limit') {p : Payload}
    (h : p.Loadable limit) :
    p.Loadable limit' := by
  cases p with
  | raw bytes => trivial
  | json v => exact Json.Loadable.mono hle h

/-- In every run of the ingest process the API, from the bytes on the wire, comes to the
state that the messages themselves lead to; and where the broker takes them all it shows the
devices that the process has online. -/
theorem run_wire (hticks : env.Ticks) (hlimit : 0 < env.limit) (maxConcurrent maxPerMinute : ℤ)
    {es : List Event} {s : System}
    (hpeers : ∀ c peer nonce, Event.accept c peer nonce ∈ es → Json.Unicode peer.text)
    (hrun : run (System.step env) (.init maxConcurrent maxPerMinute) es = some s)
    (depth : ℕ) {limit : ℕ} (hle : env.limit ≤ limit) (clock : ℕ → Time) :
    (∀ state, Api.consumeState depth limit clock state (s.ing.queue.map Message.wire) =
        Api.consumeState depth limit clock state s.ing.queue) ∧
      ((∀ n, env.broker n = .enqueued) →
        ∃ state, Api.consumeState depth limit clock .empty
          (s.ing.queue.map Message.wire) = some state ∧
          ∀ id, Api.Shows state id ↔ (s.ing.online.get id).isSome = true) := by
  have hlegible :=
    run_legible (fun c peer nonce h ↦ utters_loadable hticks hlimit (hpeers c peer nonce h)) hrun
  have htables := run_tables hrun
  have hqueue : ∀ m ∈ s.ing.queue, m.value.Loadable limit := by
    intro m hm
    rw [htables.queue] at hm
    obtain ⟨call, hcall, rfl⟩ := delivered_mem hm
    exact (hlegible.calls call hcall).mono hle
  have hwire (state : Api.State) := consumeState_wire depth hqueue clock state
  refine ⟨hwire, fun hbroker ↦ ?_⟩
  obtain ⟨state, hstate, hshows⟩ := Api.consumeState_shows depth limit clock htables.wellmade
  have hcalls : s.ing.queue = s.ing.calls.map Call.message := by
    rw [htables.queue]
    exact delivered_enqueued env 0 s.ing.calls fun k _ ↦ hbroker _
  refine ⟨state, ?_, fun id ↦ ?_⟩
  · rw [hwire, hcalls, hstate]
  · rw [hshows, htables.consistent id]

theorem run_wire_arrives :
    ∃ s, run (System.step (Env.calm .disabled)) (.init 64 120) (arrives 0) = some s ∧
      (s.ing.online.get (lit "A")).isSome = true ∧ ∀ depth clock,
        (∀ state, Api.consumeState depth 1000 clock state (s.ing.queue.map Message.wire) =
            Api.consumeState depth 1000 clock state s.ing.queue) ∧
          ∃ state, Api.consumeState depth 1000 clock .empty
            (s.ing.queue.map Message.wire) = some state ∧
            ∀ id, Api.Shows state id ↔ (s.ing.online.get id).isSome = true := by
  have honline : (run (System.step (Env.calm .disabled)) (.init 64 120) (arrives 0)).map
      (fun s ↦ (s.ing.online.get (lit "A")).isSome) = some true := by decide +kernel
  obtain ⟨s, hs, hA⟩ := Option.map_eq_some_iff.mp honline
  have hticks : (Env.calm .disabled).Ticks :=
    fun _ ↦ ⟨⟨0, 0, by decide, by decide, by norm_num [Env.calm]⟩,
    by norm_num [Env.calm]⟩
  have hpeers : ∀ c peer nonce, Event.accept c peer nonce ∈ arrives 0 → Json.Unicode peer.text := by
    intro c peer nonce h
    simp only [arrives, List.mem_cons, Event.accept.injEq, reduceCtorEq,
      List.not_mem_nil, or_false] at h
    obtain ⟨-, rfl, -⟩ := h
    exact .of_ascii (by decide)
  refine ⟨s, hs, hA, fun depth clock ↦ ?_⟩
  obtain ⟨hsame, hshows⟩ := run_wire hticks (by decide) 64 120 hpeers hs depth (le_refl 1000) clock
  exact ⟨hsame, hshows fun _ ↦ rfl⟩

end Runs

end OpusFleet.Server
