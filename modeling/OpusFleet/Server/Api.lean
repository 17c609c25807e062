import OpusFleet.Server.Speech

namespace OpusFleet.Server.Api

open Python Library Protocol

structure Device where
  imei : Str
  online : Bool
  frames : ℤ
  bytes : ℤ
  connectedAt : Value
  lastSeen : Value
  addr : Value
  segmentsUploaded : ℕ
  signal : Value
  tl : List Value

abbrev State := Dict Str Device

def Device.new (imei : Str) : Device where
  imei := imei
  online := false
  frames := 0
  bytes := 0
  connectedAt := .none
  lastSeen := .none
  addr := .none
  segmentsUploaded := 0
  signal := .none
  tl := []

def device (state : State) (imei : Str) : Device := (state.get imei).getD (Device.new imei)

/-- `bus.jload`. A JSON payload stands for the text that `bus.jdump` makes of its value. -/
def jload (limit : ℕ) : Payload → Except Exc Value
  | .json value => .ok value
  | .raw bytes =>
    match decode bytes with
    | none => .error .unicode
    | some text =>
      match loads limit text with
      | .ok value => .ok value
      | .error .value => .error .value
      | .error .recursion => .error .recursion

def falsy : Value → Bool
  | .none | .bool false | .int 0 | .float (.finite 0) | .float .negZero | .str [] | .list [] |
    .dict [] => true
  | _ => false

/-- `payload.get("imei")`, else the message key, else "unknown". `none` stands for an `imei`
that no producer writes, one that is neither text nor falsy, and for a key that is no text. -/
def imeiOf (entries : List (Str × Value)) (key : Bytes) : Option Str :=
  match (Assoc.get entries (lit "imei")).getD .none with
  | .str (c :: cs) => some (c :: cs)
  | value =>
    if falsy value then if key = [] then some (lit "unknown") else decode key
    else none

/-- A count that is added up; `none` where it is no integer. -/
def count : Option Value → Option ℤ
  | none => some 0
  | some (.int n) => some n
  | some (.bool b) => some b.toNat
  | some _ => none

def update (depth : ℕ) (now : Time) (topic : Topic) (entries : List (Str × Value)) (d : Device) :
    Option Device :=
  match topic with
  | .events =>
    match Assoc.get entries (lit "event") with
    | some (.str event) =>
      if event = lit "segment" then
        (count (Assoc.get entries (lit "bytes"))).map fun n ↦
          { d with segmentsUploaded := d.segmentsUploaded + 1, bytes := d.bytes + n }
      else if event = lit "connect" then
        some { d with
          online := true
          connectedAt := (Assoc.get entries (lit "at")).getD .none
          addr := (Assoc.get entries (lit "addr")).getD .none }
      else some { d with online := false }
    | _ => some { d with online := false }
  | .stat =>
    some { d with
      signal := .dict entries
      lastSeen := (Assoc.get entries (lit "at")).getD (.float (.finite now)) }
  | .levels =>
    let point := [lit "t", lit "db", lit "pk", lit "f"].filterMap fun k ↦
      (Assoc.get entries k).map fun v ↦ (k, v)
    (count (Assoc.get entries (lit "f"))).map fun n ↦
      { d with
        tl := (d.tl ++ [Value.dict point]).drop (d.tl.length + 1 - depth)
        lastSeen := .float (.finite now)
        frames := d.frames + n }
  | .audio => some d

/-- One round of `consume_state` on a message; `none` where an exception ends the thread. -/
def consume (depth limit : ℕ) (now : Time) (state : State) (m : Message) : Option State :=
  match jload limit m.value with
  | .error .value | .error .unicode => some state
  | .ok (.dict entries) =>
    (imeiOf entries m.key).bind fun imei ↦
      (update depth now m.topic entries (device state imei)).map (state.set imei)
  | _ => none

def subscribed (m : Message) : Bool := m.topic ≠ .audio

/-- `consume_state` on a queue: `clock n` is the reading on its n-th message. -/
def consumeState (depth limit : ℕ) (clock : ℕ → Time) : State → List Message → Option State
  | state, [] => some state
  | state, m :: ms =>
    if subscribed m then
      (consume depth limit (clock 0) state m).bind fun state ↦
        consumeState depth limit (fun n ↦ clock (n + 1)) state ms
    else consumeState depth limit (fun n ↦ clock (n + 1)) state ms

def Shows (state : State) (id : Str) : Prop := ∃ d, state.get id = some d ∧ d.online = true

section Events

variable (depth limit : ℕ)

theorem consumeState_append (clock : ℕ → Time) (state : State) (ms ms' : List Message) :
    consumeState depth limit clock state (ms ++ ms') =
      (consumeState depth limit clock state ms).bind fun state ↦
        consumeState depth limit (fun n ↦ clock (n + ms.length)) state ms' := by
  induction ms generalizing clock state with
  | nil => rfl
  | cons m ms ih =>
    have hclock : (fun n ↦ clock (n + (m :: ms).length)) = fun n ↦ clock (n + ms.length + 1) := rfl
    simp only [List.cons_append, consumeState, hclock]
    by_cases hm : subscribed m = true
    · simp only [if_pos hm]
      cases consume depth limit (clock 0) state m with
      | none => rfl
      | some state => exact ih _ state
    · simp only [if_neg hm]
      exact ih _ state

/-- A message as ingest makes it: audio, or an object with the device's name. -/
structure Wellmade (call : Call) : Prop where
  key : call.key ≠ []
  value : call.topic ≠ .audio → ∃ entries, call.value = .json (.dict entries) ∧
    Assoc.get entries (lit "imei") = some (.str call.key)
  event : call.topic = .events → call.Announces call.key ∨ call.Retires call.key
  topic : call.topic ≠ .levels

variable {call : Call} {state : State}

theorem shows_set (id x : Str) (d : Device) :
    Shows (state.set id d) x ↔ if x = id then d.online = true else Shows state x := by
  by_cases h : x = id
  · subst h
    simp [Shows]
  · simp [Shows, h]

theorem device_online (id : Str) : (device state id).online = true ↔ Shows state id := by
  rw [device, Shows]
  cases state.get id <;> simp [Device.new]

theorem imeiOf_eq {entries : List (Str × Value)} {id : Str} (key : Bytes) (hid : id ≠ [])
    (h : Assoc.get entries (lit "imei") = some (.str id)) : imeiOf entries key = some id := by
  cases id with
  | nil => exact absurd rfl hid
  | cons c cs => simp [imeiOf, h]

theorem consume_wellmade (h : Wellmade call) (hsub : call.topic ≠ .audio) (now : Time)
    (state : State) :
    ∃ state', consume depth limit now state call.message = some state' ∧
      ∀ x, Shows state' x ↔ call.Announces x ∨ Shows state x ∧ ¬ call.Retires x := by
  obtain ⟨entries, hvalue, himei⟩ := h.value hsub
  have hconsume : consume depth limit now state call.message =
      (update depth now call.topic entries (device state call.key)).map (state.set call.key) := by
    simp only [consume, Call.message, hvalue, jload, imeiOf_eq _ h.key himei, Option.bind_some]
  have hfield (name : Str) : call.field name = Assoc.get entries name := by rw [Call.field, hvalue]
  rw [hconsume]
  cases ht : call.topic with
  | audio => exact absurd ht hsub
  | levels => exact absurd ht h.topic
  | stat =>
    have hsilent := silent_of_topic (show call.topic ≠ .events by simp [ht])
    refine ⟨_, rfl, fun x ↦ ?_⟩
    rw [shows_set]
    split
    · next hx => simp [hsilent, device_online, hx]
    · simp [hsilent]
  | events =>
    rcases h.event ht with hann | hret
    · have he : Assoc.get entries (lit "event") = some (.str (lit "connect")) :=
        hfield _ ▸ (event_eq call).mp hann.2.2
      have hr (x : Str) : ¬ call.Retires x := hann.not_retires
      have ha (x : Str) : call.Announces x ↔ x = call.key :=
        ⟨fun h ↦ h.2.1.symm, fun h ↦ h ▸ hann⟩
      have hne : lit "connect" ≠ lit "segment" := by decide
      simp only [update, he, if_neg hne, if_true]
      refine ⟨_, rfl, fun x ↦ ?_⟩
      rw [shows_set, ha]
      split
      · next hx => simp [hx]
      · next hx => simp [hx, hr]
    · have he : Assoc.get entries (lit "event") = some (.str (lit "disconnect")) :=
        hfield _ ▸ (event_eq call).mp hret.2.2
      have ha (x : Str) : ¬ call.Announces x := hret.not_announces
      have hr (x : Str) : call.Retires x ↔ x = call.key :=
        ⟨fun h ↦ h.2.1.symm, fun h ↦ h ▸ hret⟩
      have hne : lit "disconnect" ≠ lit "segment" := by decide
      simp only [update, he, if_neg hne, if_neg connect_ne_disconnect.symm]
      refine ⟨_, rfl, fun x ↦ ?_⟩
      rw [shows_set, hr]
      split
      · next hx => simp [hx, ha]
      · next hx => simp [hx, ha]

/-- The flags that the API derives from a queue are those the events in it say. -/
theorem consumeState_shows (clock : ℕ → Time) {calls : List Call}
    (h : ∀ call ∈ calls, Wellmade call) :
    ∃ state, consumeState depth limit clock .empty (calls.map Call.message) = some state ∧
      ∀ x, Shows state x ↔ Present calls x := by
  induction calls using List.reverseRecOn with
  | nil => exact ⟨.empty, rfl, fun x ↦ by simp [Shows, Present]⟩
  | append_singleton calls call ih =>
    obtain ⟨state, hstate, hshows⟩ := ih fun c hc ↦ h c (List.mem_append_left _ hc)
    have hcall := h call (by simp)
    rw [List.map_append, consumeState_append, hstate]
    simp only [Option.bind_some, List.map_cons, List.map_nil, consumeState, present_concat]
    by_cases hsub : call.topic = .audio
    · have hsub' : subscribed call.message = false := by simp [subscribed, Call.message, hsub]
      refine ⟨state, by simp [hsub'], fun x ↦ ?_⟩
      rw [hshows]
      simp [silent_of_topic (show call.topic ≠ .events by simp [hsub])]
    · have hsub' : subscribed call.message = true := by simp [subscribed, Call.message, hsub]
      obtain ⟨state', hs', hshows'⟩ := consume_wellmade depth limit hcall hsub
        (clock (0 + (calls.map Call.message).length)) state
      refine ⟨state', ?_, fun x ↦ ?_⟩
      · rw [if_pos hsub', hs']
        rfl
      · rw [hshows', hshows]

end Events

end OpusFleet.Server.Api
