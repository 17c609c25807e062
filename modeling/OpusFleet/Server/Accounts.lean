import OpusFleet.Server.Broker
import OpusFleet.Server.Conservation
import OpusFleet.Server.Metering

namespace OpusFleet.Server

open Python Library Library.Runs

namespace Segmenter

section Told

variable {c : Env} {s s' : State}

/-- Every object stored is told of, with its device and its size. -/
def Told (s : State) : Prop :=
  s.landed.map (fun l ↦ (l.imei, l.bytes)) = s.puts.map fun p ↦ (p.seg.imei, p.data.length)

theorem upload_told (hstores : ∀ n, c.stores n = true) (htakes : ∀ n, c.takes n = true)
    (h : Told s) (p : Put) :
    Told (s.upload c p) := by
  rw [State.upload, if_pos (hstores _)]
  simp only [Told, htakes, if_true, List.map_append, List.map_singleton]
  rw [h]

theorem Flushes.told {ps : List Put} (hstores : ∀ n, c.stores n = true)
    (htakes : ∀ n, c.takes n = true) (hflushes : Flushes c s ps s') (h : Told s) : Told s' := by
  induction hflushes with
  | nil => exact h
  | cons _ _ _ ih => exact ih (upload_told hstores htakes h _)

theorem take_told (h : Told s) (e : Event) : Told (s.take c e) := by
  rw [State.take]
  split
  · rw [State.hear, State.segment]
    split
    · exact h
    · exact h
  · split
    · exact h
    · exact h

theorem run_told (hstores : ∀ n, c.stores n = true) (htakes : ∀ n, c.takes n = true)
    {es : List Event} (hrun : run (step c) .init es = some s) : Told s := by
  have hinit : Told State.init := rfl
  refine run_induction (I := fun _ s ↦ Told s) hinit ?_ (throughout_true es) hrun
  intro es m e m' hm h _ hstep
  obtain ⟨ps, hround⟩ := step_round (run_refines hm).1.keyed hstep
  have htold := hround.flushes.told hstores htakes (take_told h e)
  exact htold

theorem decode_ne_nil {b : UInt8} {bs : Bytes} {text : Str} (h : decode (b :: bs) = some text) :
    text ≠ [] := by
  rintro rfl
  unfold decode at h
  (repeat' split at h) <;> simp at h

theorem keyText_ne_nil {key : Option Bytes} {imei : Str} (h : keyText key = .ok imei) :
    imei ≠ [] := by
  unfold keyText at h
  split at h
  · rw [← Except.ok.inj h]
    decide
  · rw [← Except.ok.inj h]
    decide
  · split at h
    · cases h
    · next text hdecode =>
      rw [← Except.ok.inj h]
      exact decode_ne_nil hdecode

theorem opusOf_named {e : Event} {imei : Str} {opus : Bytes} (h : opusOf e = some (imei, opus)) :
    imei ≠ [] := by
  unfold opusOf at h
  split at h
  · split at h
    · next hkey _ =>
      obtain ⟨rfl, -⟩ := Prod.mk.inj (Option.some.inj h)
      exact keyText_ne_nil hkey
    · cases h
  · cases h

theorem run_puts_named {es : List Event} (hrun : run (step c) .init es = some s) :
    ∀ p ∈ s.puts, p.seg.imei ≠ [] := by
  intro p hp
  have hbuilt := (run_refines hrun).1.built p hp
  obtain ⟨opus, hopus⟩ := List.exists_mem_of_ne_nil _ hbuilt.1
  have hsent : opus ∈ sent p.seg.imei s := by
    rw [sent, List.mem_flatMap]
    exact ⟨p, hp, by rwa [if_pos rfl]⟩
  have hheard : opus ∈ heard p.seg.imei es := by
    rw [← run_conserves hrun p.seg.imei]
    exact List.mem_append_left _ hsent
  obtain ⟨e, -, hmem⟩ := List.mem_flatMap.mp hheard
  split at hmem
  · next imei _ hopus =>
    split at hmem
    · next himei => exact himei ▸ opusOf_named hopus
    · cases hmem
  · cases hmem

end Told

end Segmenter

namespace Levels

section Records

variable {env : Env} {s : State}

def Recorded (call : Call) : Prop :=
  ∃ imei, ∃ rec : Record, imei ≠ [] ∧ call = Api.levelRecord imei rec.t rec.db rec.pk rec.f

theorem meterFrame_recorded {imei : Str} (hne : imei ≠ []) (pcm : Bytes)
    (h : ∀ call ∈ s.produced, Recorded call) :
    ∀ call ∈ (meterFrame env s imei pcm).produced, Recorded call := by
  rw [meterFrame]
  split
  · exact h
  · dsimp only
    split
    · exact h
    · next rec _ =>
      exact List.forall_mem_append.mpr ⟨h, List.forall_mem_singleton.mpr ⟨imei, rec, hne, rfl⟩⟩

theorem consume_recorded (key : Option Bytes) (value : Bytes)
    (h : ∀ call ∈ s.produced, Recorded call) :
    ∀ call ∈ (consume env s key value).produced, Recorded call := by
  rw [consume]
  split
  · exact h
  · next imei hkey =>
    split
    · exact h
    · exact h
    · dsimp only
      split
      · exact h
      · exact meterFrame_recorded (Segmenter.keyText_ne_nil hkey) _ h

theorem run_recorded {es : List Segmenter.Event} (hrun : run (step env) .init es = some s) :
    ∀ call ∈ s.produced, Recorded call := by
  have hinit : ∀ call ∈ State.init.produced, Recorded call := by simp [State.init]
  refine run_induction
    (I := fun _ s ↦ ∀ call ∈ s.produced, Recorded call) hinit ?_ (throughout_true es) hrun
  intro es m e m' _ h _ hstep
  rw [step] at hstep
  split at hstep
  · obtain rfl := Option.some.inj hstep
    cases e with
    | idle | error | interrupt => exact h
    | message key value => exact consume_recorded (s := { m with turns := m.turns + 1 }) key value h
  · cases hstep

end Records

end Levels

namespace Api

section Events

variable (depth limit : ℕ) (id : Str)

def landedBytes (m : Message) : Option ℤ :=
  match jload limit m.value with
  | .ok (.dict entries) =>
    match Assoc.get entries (lit "event") with
    | some (.str event) =>
      if m.topic = .events ∧ event = lit "segment" then count (Assoc.get entries (lit "bytes"))
      else none
    | _ => none
  | _ => none

theorem write_event {m : Message} (htopic : m.topic = .events) (d : Device) :
    (write depth limit (id, .events) m d).segmentsUploaded =
        d.segmentsUploaded + (landedBytes limit m).toList.length ∧
      (write depth limit (id, .events) m d).bytes = d.bytes + (landedBytes limit m).toList.sum ∧
      ((landedBytes limit m).isSome = true →
        (write depth limit (id, .events) m d).online = d.online) ∧
      ∀ d' : Device, d'.online = d.online →
        (write depth limit (id, .events) m d').online =
        (write depth limit (id, .events) m d).online := by
  cases hload : jload limit m.value with
  | error e => simp [landedBytes, write, hload]
  | ok value =>
    cases value with
    | dict entries =>
      cases hevent : Assoc.get entries (lit "event") with
      | none => simp [landedBytes, write, hload, htopic, update, hevent, Device.part, Device.new]
      | some value =>
        cases value with
        | str event =>
          by_cases hsegment : event = lit "segment"
          · cases hcount : count (Assoc.get entries (lit "bytes")) with
            | none => simp [landedBytes, write, hload, htopic, update, hevent, hsegment,
              hcount, Device.part]
            | some n => simp [landedBytes, write, hload, htopic, update, hevent, hsegment,
              hcount, Device.part]
          · have hother : lit "connect" ≠ lit "segment" := by decide
            by_cases hconnect : event = lit "connect"
            · simp [landedBytes, write, hload, htopic, update, hevent, hconnect,
                hother, Device.part]
            · simp [landedBytes, write, hload, htopic, update, hevent, hsegment,
                hconnect, Device.part]
        | none | bool | int | float | list | dict =>
          simp [landedBytes, write, hload, htopic, update, hevent, Device.part]
    | none | bool | int | float | str | list => simp [landedBytes, write, hload]

variable {ms : List Message}

theorem foldl_segments (h : ∀ m ∈ ms, m.topic = .events) (d : Device) :
    (ms.foldl (fun d m ↦ write depth limit (id, .events) m d) d).segmentsUploaded =
        d.segmentsUploaded + (ms.filterMap (landedBytes limit)).length ∧
      (ms.foldl (fun d m ↦ write depth limit (id, .events) m d) d).bytes =
        d.bytes + (ms.filterMap (landedBytes limit)).sum := by
  induction ms generalizing d with
  | nil => simp
  | cons m ms ih =>
    obtain ⟨hm, hms⟩ := List.forall_mem_cons.mp h
    obtain ⟨hsegments, hbytes, -⟩ := write_event depth limit id hm d
    obtain ⟨hsegments', hbytes'⟩ := ih hms (write depth limit (id, .events) m d)
    rw [List.foldl_cons, hsegments', hbytes', hsegments, hbytes, List.filterMap_cons]
    cases landedBytes limit m with
    | none => simp
    | some n => constructor <;> simp <;> omega

theorem foldl_online (h : ∀ m ∈ ms, m.topic = .events) {d d' : Device} (hd : d.online = d'.online) :
    (ms.foldl (fun d m ↦ write depth limit (id, .events) m d) d).online =
      ((ms.filter fun m ↦ (landedBytes limit m).isNone).foldl (fun d m ↦
        write depth limit (id, .events) m d)
        d').online := by
  induction ms generalizing d d' with
  | nil => exact hd
  | cons m ms ih =>
    obtain ⟨hm, hms⟩ := List.forall_mem_cons.mp h
    obtain ⟨-, -, hkept, -⟩ := write_event depth limit id hm d
    obtain ⟨-, -, -, hsame⟩ := write_event depth limit id hm d'
    rw [List.foldl_cons, List.filter_cons]
    cases hlanded : landedBytes limit m with
    | none =>
      rw [if_pos (by simp), List.foldl_cons]
      exact ih hms (hsame d hd)
    | some n =>
      rw [if_neg (by simp)]
      exact ih hms ((hkept (by rw [hlanded]; rfl)).trans hd)

end Events

section Points

variable (depth limit : ℕ) (id : Str)

def pointOf (call : Call) : Value :=
  .dict ([lit "t", lit "db", lit "pk", lit "f"].filterMap fun k ↦ (call.field k).map fun v ↦ (k, v))

theorem write_record {call : Call} (h : Levels.Recorded call) (d : Device) :
    (write depth limit (id, .levels) call.message d).frames = d.frames + Levels.reported call ∧
      (write depth limit (id, .levels) call.message d).tl =
        (d.tl ++ [pointOf call]).drop (d.tl.length + 1 - depth) := by
  obtain ⟨imei, rec, -, rfl⟩ := h
  exact ⟨rfl, rfl⟩

variable {records : List Call}

theorem foldl_records (h : ∀ call ∈ records, Levels.Recorded call) {d : Device}
    (hd : d.tl.length ≤ depth) :
    ((records.map Call.message).foldl (fun d m ↦ write depth limit (id, .levels) m d) d).frames =
        d.frames + (records.map Levels.reported).sum ∧
      ((records.map Call.message).foldl (fun d m ↦ write depth limit (id, .levels) m d) d).tl =
        (d.tl ++ records.map pointOf).drop (d.tl.length + records.length - depth) := by
  induction records generalizing d with
  | nil =>
    have hall : d.tl.length - depth = 0 := by omega
    simp [hall]
  | cons call records ih =>
    obtain ⟨hcall, hrecords⟩ := List.forall_mem_cons.mp h
    obtain ⟨hframes, htl⟩ := write_record depth limit id hcall d
    have hlength : (write depth limit (id, .levels) call.message d).tl.length =
        d.tl.length + 1 - (d.tl.length + 1 - depth) := by
      rw [htl]
      simp
    obtain ⟨hframes', htl'⟩ :=
      ih hrecords (d := write depth limit (id, .levels) call.message d) (by omega)
    rw [List.map_cons, List.foldl_cons, hframes', htl', hframes, hlength, htl]
    constructor
    · simp only [List.map_cons, List.sum_cons]
      omega
    · have hsplit : d.tl ++ (call :: records).map pointOf =
          (d.tl ++ [pointOf call]) ++ records.map pointOf := by simp
      have hfront : d.tl.length + 1 - depth ≤ (d.tl ++ [pointOf call]).length := by simp
      rw [hsplit, ← List.drop_append_of_le_length hfront, List.drop_drop]
      congr 1
      simp only [List.length_cons]
      omega

theorem write_stat {call : Call} {entries : List (Str × Value)} (htopic : call.topic = .stat)
    (hvalue : call.value = .json (.dict entries)) (d : Device) :
    (write depth limit (id, .stat) call.message d).signal = .dict entries := by
  rw [write, Call.message, hvalue]
  simp only [jload, htopic, update, Option.getD_some, Device.part]

theorem write_wellmade {call : Call} (h : Wellmade call)
    (htopic : call.topic = .events) (d : Device) :
    (write depth limit (id, .events) call.message d).online = true ↔ call.Announces call.key := by
  obtain ⟨entries, hvalue, -⟩ := h.value (by rw [htopic]; decide)
  have hfield (name : Str) : call.field name = Assoc.get entries name := by rw [Call.field, hvalue]
  rcases h.event htopic with hann | hret
  · have hevent : Assoc.get entries (lit "event") = some (.str (lit "connect")) :=
      hfield _ ▸ (event_eq call).mp hann.2.2
    have hne : lit "connect" ≠ lit "segment" := by decide
    rw [write, Call.message, hvalue]
    simp [jload, htopic, update, hevent, hne, Device.part, hann]
  · have hevent : Assoc.get entries (lit "event") = some (.str (lit "disconnect")) :=
      hfield _ ▸ (event_eq call).mp hret.2.2
    have hne : lit "disconnect" ≠ lit "segment" := by decide
    have hsilent : ¬ call.Announces call.key := hret.not_announces
    rw [write, Call.message, hvalue]
    simp [jload, htopic, update, hevent, hne, connect_ne_disconnect.symm, Device.part, hsilent]

variable {calls : List Call}

theorem foldl_present (h : ∀ call ∈ calls, Wellmade call) :
    (((calls.filter fun call ↦ call.key = id ∧ call.topic = .events).map Call.message).foldl
        (fun d m ↦ write depth limit (id, .events) m d) ((Device.new id).part .events)).online =
          true ↔
      Present calls id := by
  induction calls using List.reverseRecOn with
  | nil => simp [Present, Device.new, Device.part]
  | append_singleton calls call ih =>
    have hcall := h call (by simp)
    have hcalls := ih fun c hc ↦ h c (List.mem_append_left _ hc)
    rw [present_concat, List.filter_append, List.map_append, List.foldl_append]
    by_cases hown : call.key = id ∧ call.topic = .events
    · obtain ⟨rfl, htopic⟩ := hown
      have hretires : ¬ call.Announces call.key → call.Retires call.key :=
        (hcall.event htopic).resolve_left
      rw [List.filter_cons_of_pos (by simp [htopic])]
      simp only [List.filter_nil, List.map_cons, List.map_nil, List.foldl_cons, List.foldl_nil]
      rw [write_wellmade depth limit call.key hcall htopic]
      tauto
    · have hsilent : ¬ call.Announces id ∧ ¬ call.Retires id :=
        ⟨fun ha ↦ hown ⟨ha.2.1, ha.1⟩, fun hr ↦ hown ⟨hr.2.1, hr.1⟩⟩
      rw [List.filter_cons_of_neg (by simpa using hown)]
      simp only [List.filter_nil, List.map_nil, List.foldl_nil]
      rw [hcalls]
      tauto

end Points

section Gathered

inductive Producer
  | ingest
  | segmenter
  | levels
  deriving DecidableEq

def sent (queue : List Message) (landed : List Segmenter.Landed) (records : List Call) :
    Producer → List Message
  | .ingest => queue
  | .segmenter => landed.map fun x ↦ (segmentEvent x).message
  | .levels => records.map Call.message

variable {κ : Type} [DecidableEq κ] {part : Bytes → κ} {sources : Producer → List Message}
    {ms : List Message}

/-- The API was given all that it subscribes to. The messages of one producer come in their order
where they are in one partition, and in any order where they are not. -/
def Gathered (part : Bytes → κ) (sources : Producer → List Message) (ms : List Message) : Prop :=
  ∃ xs : List ((Producer × Topic × κ) × Message),
    Shuffle (fun q ↦ if q.2.1 = .audio then [] else partition part q.2.1 (sources q.1) q.2.2) xs ∧
      ms = xs.map Prod.snd

theorem Gathered.mem (h : Gathered part sources ms) {m : Message} :
    m ∈ ms ↔ m.topic ≠ .audio ∧ ∃ p, m ∈ sources p := by
  obtain ⟨xs, hxs, rfl⟩ := h
  rw [hxs.mem_map]
  constructor
  · rintro ⟨⟨p, t, k⟩, hm⟩
    dsimp only at hm
    split at hm
    · cases hm
    · next ht =>
      obtain ⟨hmem, htopic, -⟩ : m ∈ sources p ∧ m.topic = t ∧ part m.key = k := by
        simpa [partition] using hm
      exact ⟨htopic ▸ ht, p, hmem⟩
  · rintro ⟨ht, p, hm⟩
    refine ⟨(p, m.topic, part m.key), ?_⟩
    rw [if_neg ht]
    simpa [partition] using hm

theorem Gathered.filter (h : Gathered part sources ms) {q : Message → Bool} {p : Producer}
    {t : Topic} {k : Bytes} (ht : t ≠ .audio) (hq : ∀ p' m, m ∈ sources p' → q m = true → p' = p ∧
      m.topic = t ∧ m.key = k) :
    ms.filter q = (sources p).filter q := by
  obtain ⟨xs, hxs, rfl⟩ := h
  have hone : ∀ x m, m ∈ (if x.2.1 = .audio then [] else partition part x.2.1 (sources x.1) x.2.2) →
    q m = true →
      x = (p, t, part k) := by
    rintro ⟨p', t', k'⟩ m hm hqm
    dsimp only at hm
    split at hm
    · cases hm
    · obtain ⟨hmem, htopic, hkey⟩ : m ∈ sources p' ∧ m.topic = t' ∧ part m.key = k' := by
        simpa [partition] using hm
      obtain ⟨rfl, rfl, rfl⟩ := hq p' m hmem hqm
      rw [htopic, hkey]
  rw [hxs.filter_of_log q (p, t, part k) hone]
  simp only [if_neg ht, partition, List.filter_filter]
  apply List.filter_congr
  intro m hm
  cases hqm : q m with
  | false => simp
  | true =>
    obtain ⟨-, rfl, rfl⟩ := hq p m hm hqm
    simp

def inTurn (sources : Producer → List Message) : List Message :=
  [Producer.ingest, .segmenter, .levels].flatMap fun p ↦ (sources p).filter fun m ↦ m.topic ≠ .audio

theorem gathered_inTurn (sources : Producer → List Message) :
    Gathered (fun _ ↦ ()) sources (inTurn sources) := by
  let entries (p : Producer) : List ((Producer × Topic × Unit) × Message) :=
    ((sources p).filter fun m ↦ m.topic ≠ .audio).map fun m ↦ ((p, m.topic, ()), m)
  have hentries (p p' : Producer) (t : Topic) :
      ((entries p).filter fun x ↦ x.1 = (p', t, ())).map Prod.snd =
        if p = p' ∧ t ≠ .audio then (sources p).filter fun m ↦ m.topic = t else [] := by
    rw [List.filter_map, List.map_map, List.filter_filter]
    have hid : (Prod.snd ∘ fun m : Message ↦ ((p, m.topic, ()), m)) = id := rfl
    rw [hid, List.map_id]
    split
    · next h =>
      obtain ⟨rfl, ht⟩ := h
      apply List.filter_congr
      intro m _
      by_cases hm : m.topic = t
      · simp [hm, ht]
      · simp [hm]
    · next h =>
      rw [List.filter_eq_nil_iff]
      intro m _ hm
      simp only [Function.comp_apply, Prod.mk.injEq, and_true, ne_eq, decide_not, Bool.and_eq_true,
        decide_eq_true_eq, Bool.not_eq_true', decide_eq_false_iff_not] at hm
      obtain ⟨⟨hp, ht⟩, hne⟩ := hm
      exact h ⟨hp, ht ▸ hne⟩
  refine ⟨[Producer.ingest, .segmenter, .levels].flatMap entries, ?_, ?_⟩
  · rintro ⟨p, t, k⟩
    simp only [List.flatMap_cons, List.flatMap_nil, List.filter_append, List.map_append,
      List.append_nil, hentries, partition]
    by_cases ht : t = .audio
    · simp [ht]
    · cases p <;> simp [ht]
  · simp [inTurn, entries, Function.comp_def]

end Gathered

section Entries

variable {limit : ℕ} {id : Str} {call : Call} {p : Producer}

def Names (call : Call) : Prop :=
  ∃ entries, call.key ≠ [] ∧ call.value = .json (.dict entries) ∧
    Assoc.get entries (lit "imei") = some (.str call.key)

theorem slot_names (h : Names call) : slot limit call.message = some (call.key, call.topic) := by
  obtain ⟨entries, hne, hvalue, himei⟩ := h
  have hload : jload limit call.message.value = .ok (.dict entries) := by
    rw [Call.message, hvalue, jload]
  rw [slot, owner_of_dict hload, imeiOf_eq _ hne himei]
  rfl

theorem landedBytes_segment (limit : ℕ) (x : Segmenter.Landed) :
    landedBytes limit (segmentEvent x).message = some (x.bytes : ℤ) := rfl

theorem landedBytes_wellmade (h : Wellmade call) : landedBytes limit call.message = none := by
  by_cases htopic : call.topic = .events
  · obtain ⟨entries, hvalue, -⟩ := h.value (by rw [htopic]; decide)
    have hfield (name : Str) : call.field name = Assoc.get entries name := by
      rw [Call.field, hvalue]
    have hconnect : lit "connect" ≠ lit "segment" := by decide
    have hdisconnect : lit "disconnect" ≠ lit "segment" := by decide
    rcases h.event htopic with hann | hret
    · have hevent : Assoc.get entries (lit "event") = some (.str (lit "connect")) :=
        hfield _ ▸ (event_eq call).mp hann.2.2
      simp [landedBytes, Call.message, hvalue, jload, hevent, hconnect]
    · have hevent : Assoc.get entries (lit "event") = some (.str (lit "disconnect")) :=
        hfield _ ▸ (event_eq call).mp hret.2.2
      simp [landedBytes, Call.message, hvalue, jload, hevent, hdisconnect]
  · rw [landedBytes]
    split
    · split
      · exact if_neg fun h ↦ htopic h.1
      · rfl
    · rfl

/-- What a role produces. -/
inductive Sends : Producer → Call → Prop
  | ingest {call : Call} (h : Wellmade call) : Sends .ingest call
  | segmenter {x : Segmenter.Landed} (h : x.imei ≠ []) : Sends .segmenter (segmentEvent x)
  | levels {call : Call} (h : Levels.Recorded call) : Sends .levels call

theorem Sends.names (h : Sends p call) (htopic : call.topic ≠ .audio) : Names call := by
  cases h with
  | ingest h =>
    obtain ⟨entries, hvalue, himei⟩ := h.value htopic
    exact ⟨entries, h.key, hvalue, himei⟩
  | segmenter h => exact ⟨_, h, rfl, rfl⟩
  | levels h =>
    obtain ⟨imei, rec, hne, rfl⟩ := h
    exact ⟨_, hne, rfl, rfl⟩

theorem Sends.sound (h : Sends p call) (htopic : call.topic ≠ .audio) (limit : ℕ) :
    Sound limit call.message := by
  cases h with
  | ingest h => exact h.sound htopic limit
  | segmenter h => exact segmentEvent_sound limit _
  | levels h =>
    obtain ⟨imei, rec, -, rfl⟩ := h
    exact levelRecord_sound limit imei rec.t rec.db rec.pk rec.f

theorem Sends.levels_iff (h : Sends p call) : call.topic = .levels ↔ p = .levels := by
  cases h with
  | ingest h => simp [h.topic]
  | segmenter h => simp [segmentEvent]
  | levels h =>
    obtain ⟨imei, rec, -, rfl⟩ := h
    simp [levelRecord]

theorem Sends.stat (h : Sends p call) (htopic : call.topic = .stat) : p = .ingest := by
  cases h with
  | ingest => rfl
  | segmenter => cases htopic
  | levels h =>
    obtain ⟨imei, rec, -, rfl⟩ := h
    cases htopic

theorem Sends.events (h : Sends p call) (limit : ℕ) (htopic : call.topic = .events) :
    p = if (landedBytes limit call.message).isSome = true then .segmenter else .ingest := by
  cases h with
  | ingest h => rw [landedBytes_wellmade h]; rfl
  | segmenter h => rfl
  | levels h =>
    obtain ⟨imei, rec, -, rfl⟩ := h
    cases htopic

variable {κ : Type} [DecidableEq κ] {part : Bytes → κ} {ms : List Message}
    {calls records : List Call}
  {landed : List Segmenter.Landed}

structure Produce (calls : List Call) (landed : List Segmenter.Landed) (records : List Call) :
    Prop where
  ingest : ∀ call ∈ calls, Wellmade call
  segmenter : ∀ x ∈ landed, x.imei ≠ []
  levels : ∀ call ∈ records, Levels.Recorded call

theorem Produce.sends (h : Produce calls landed records) {m : Message}
    (hm : m ∈ sent (calls.map Call.message) landed records p) :
    ∃ call, Sends p call ∧ call.message = m := by
  cases p with
  | ingest =>
    obtain ⟨call, hcall, rfl⟩ := List.mem_map.mp hm
    exact ⟨call, .ingest (h.ingest call hcall), rfl⟩
  | segmenter =>
    obtain ⟨x, hx, rfl⟩ := List.mem_map.mp hm
    exact ⟨_, .segmenter (h.segmenter x hx), rfl⟩
  | levels =>
    obtain ⟨call, hcall, rfl⟩ := List.mem_map.mp hm
    exact ⟨call, .levels (h.levels call hcall), rfl⟩

theorem Produce.slot (h : Produce calls landed records) {m : Message} {t : Topic} (ht : t ≠ .audio)
    (hm : m ∈ sent (calls.map Call.message) landed records p)
    (hslot : slot limit m = some (id, t)) :
    ∃ call, Sends p call ∧ call.message = m ∧ call.key = id ∧ call.topic = t := by
  obtain ⟨call, hcall, rfl⟩ := h.sends hm
  have htopic : call.topic = t := by
    obtain ⟨x, -, hx⟩ := Option.map_eq_some_iff.mp hslot
    exact (Prod.mk.inj hx).2
  have hnames := hcall.names (by rwa [htopic])
  rw [slot_names hnames] at hslot
  exact ⟨call, hcall, rfl, (Prod.mk.inj (Option.some.inj hslot)).1, htopic⟩

variable (h : Produce calls landed records)
    (hms : Gathered part (sent (calls.map Call.message) landed records) ms)

include h hms

theorem Gathered.levels_slot : ms.filter (fun m ↦ slot limit m = some (id, .levels)) =
    (records.filter fun call ↦ call.key = id).map Call.message := by
  rw [hms.filter (p := .levels) (t := .levels) (k := encode id) (by decide) ?_]
  · rw [sent, List.filter_map]
    congr 1
    apply List.filter_congr
    intro call hcall
    have hsends : Sends .levels call := .levels (h.levels call hcall)
    have htopic := hsends.levels_iff.mpr rfl
    simp [slot_names (hsends.names (by rw [htopic]; decide)), htopic]
  · intro p m hm hq
    obtain ⟨call, hcall, rfl, rfl, htopic⟩ := h.slot (by decide) hm (of_decide_eq_true hq)
    exact ⟨hcall.levels_iff.mp htopic, htopic, rfl⟩

theorem Gathered.stat_slot : ms.filter (fun m ↦ slot limit m = some (id, .stat)) =
    (calls.filter fun call ↦ call.key = id ∧ call.topic = .stat).map Call.message := by
  rw [hms.filter (p := .ingest) (t := .stat) (k := encode id) (by decide) ?_]
  · rw [sent, List.filter_map]
    congr 1
    apply List.filter_congr
    intro call hcall
    have hsends : Sends .ingest call := .ingest (h.ingest call hcall)
    by_cases htopic : call.topic = .audio
    · simp [htopic, Api.slot, Call.message]
    · simp [slot_names (hsends.names htopic)]
  · intro p m hm hq
    obtain ⟨call, hcall, rfl, rfl, htopic⟩ := h.slot (by decide) hm (of_decide_eq_true hq)
    exact ⟨hcall.stat htopic, htopic, rfl⟩

theorem Gathered.flag_slot :
    ms.filter (fun m ↦ slot limit m = some (id, .events) ∧ (landedBytes limit m).isNone) =
    (calls.filter fun call ↦ call.key = id ∧ call.topic = .events).map Call.message := by
  rw [hms.filter (p := .ingest) (t := .events) (k := encode id) (by decide) ?_]
  · rw [sent, List.filter_map]
    congr 1
    apply List.filter_congr
    intro call hcall
    have hwellmade := h.ingest call hcall
    have hsends : Sends .ingest call := .ingest hwellmade
    by_cases htopic : call.topic = .audio
    · simp [htopic, Api.slot, Call.message]
    · simp [slot_names (hsends.names htopic), landedBytes_wellmade hwellmade]
  · intro p m hm hq
    obtain ⟨hslot, hnone⟩ := of_decide_eq_true hq
    obtain ⟨call, hcall, rfl, rfl, htopic⟩ := h.slot (by decide) hm hslot
    have hp := hcall.events limit htopic
    rw [if_neg (by simpa using hnone)] at hp
    exact ⟨hp, htopic, rfl⟩

theorem Gathered.landed_slot :
    (ms.filter fun m ↦ slot limit m = some (id, .events)).filterMap (landedBytes limit) =
      (landed.filter fun x ↦ x.imei = id).map fun x ↦ (x.bytes : ℤ) := by
  have hsome : ms.filter (fun m ↦ slot limit m = some (id, .events) ∧
    (landedBytes limit m).isSome) =
      (landed.filter fun x ↦ x.imei = id).map fun x ↦ (segmentEvent x).message := by
    rw [hms.filter (p := .segmenter) (t := .events) (k := encode id) (by decide) ?_]
    · rw [sent, List.filter_map]
      congr 1
      apply List.filter_congr
      intro x hx
      have hsends : Sends .segmenter (segmentEvent x) := .segmenter (h.segmenter x hx)
      have hslot : Api.slot limit (segmentEvent x).message = some (x.imei, .events) :=
        slot_names (hsends.names (by simp [segmentEvent]))
      simp [hslot, landedBytes_segment]
    · intro p m hm hq
      obtain ⟨hslot, hlanded⟩ := of_decide_eq_true hq
      obtain ⟨call, hcall, rfl, rfl, htopic⟩ := h.slot (by decide) hm hslot
      have hp := hcall.events limit htopic
      rw [if_pos hlanded] at hp
      exact ⟨hp, htopic, rfl⟩
  have hsplit :
      (ms.filter fun m ↦ slot limit m = some (id, .events)).filterMap (landedBytes limit) =
      (ms.filter fun m ↦ slot limit m = some (id, .events) ∧ (landedBytes limit m).isSome).filterMap
        (landedBytes limit) := by
    rw [List.filterMap_filter, List.filterMap_filter]
    congr 1
    funext m
    cases landedBytes limit m <;> simp
  rw [hsplit, hsome, List.filterMap_map, ← List.filterMap_eq_map]
  rfl

end Entries

section Accounts

def reportOf (call : Call) : Option Value :=
  match call.value with
  | .json value => some value
  | .raw _ => none

/-- What the API shows of a device is what the three roles have done for it. -/
structure Accounts (depth : ℕ) (s : System) (t : Segmenter.State) (l : Levels.State)
    (id : Str) (d : Device) :
    Prop where
  online : d.online = true ↔ (s.ing.online.get id).isSome = true
  segmentsUploaded : d.segmentsUploaded = (t.puts.filter fun p ↦ p.seg.imei = id).length
  bytes : d.bytes = ((t.puts.filter fun p ↦ p.seg.imei = id).map fun p ↦ (p.data.length : ℤ)).sum
  frames : d.frames + (l.meter id).frames = l.decoded.count id
  tl : d.tl = ((l.produced.filter fun call ↦ call.key = id).map pointOf).drop
    ((l.produced.filter fun call ↦ call.key = id).length - depth)
  signal : d.signal =
    ((s.ing.calls.filter fun call ↦ call.key = id ∧
      call.topic = .stat).getLast?.bind reportOf).getD .none

variable {κ : Type} [DecidableEq κ] {part : Bytes → κ} {depth limit : ℕ} {clock : ℕ → Time}
    {ms : List Message}
  {calls records : List Call} {landed : List Segmenter.Landed}

theorem foldl_signal (id : Str) (h : ∀ call ∈ calls, call.topic = .stat ∧ (Names call))
    (d : Device) :
    ((calls.map Call.message).foldl (fun d m ↦ write depth limit (id, .stat) m d) d).signal =
      (calls.getLast?.bind reportOf).getD d.signal := by
  induction calls using List.reverseRecOn with
  | nil => rfl
  | append_singleton calls call ih =>
    obtain ⟨htopic, entries, -, hvalue, -⟩ := h call (by simp)
    rw [List.map_append, List.foldl_append, List.getLast?_concat]
    simp only [List.map_cons, List.map_nil, List.foldl_cons, List.foldl_nil, Option.bind_some]
    rw [write_stat depth limit id htopic hvalue, reportOf, hvalue]
    rfl

theorem Gathered.consumed (h : Produce calls landed records)
    (hms : Gathered part (sent (calls.map Call.message) landed records) ms) (depth limit : ℕ)
    (clock : ℕ → Time) :
    ∃ state, consumeState depth limit clock .empty ms = some state ∧
      ∀ id t, (device state id).part t =
        (ms.filter fun m ↦ slot limit m = some (id, t)).foldl
          (fun d m ↦ write depth limit (id, t) m d) ((Device.new id).part t) := by
  have hsub : ∀ m ∈ ms, subscribed m ∧ Sound limit m := by
    intro m hm
    obtain ⟨htopic, p, hp⟩ := hms.mem.mp hm
    obtain ⟨call, hcall, rfl⟩ := h.sends hp
    exact ⟨decide_eq_true htopic, hcall.sound htopic limit⟩
  have hsound : ∀ b ∈ stamped clock ms, Sound limit b.2 := by
    intro b hb
    refine (hsub b.2 ?_).2
    rw [← stamped_snd clock ms]
    exact List.mem_map_of_mem hb
  obtain ⟨state, hrun⟩ := Option.isSome_iff_exists.mp (run_total depth hsound .empty)
  refine ⟨state, (consumeState_eq_run clock .empty fun m hm ↦ (hsub m hm).1).trans hrun,
    fun id t ↦ ?_⟩
  have hobs := turn_separable.obs_run hrun (id, t)
  rwa [stamped_snd] at hobs

theorem slot_events {id : Str} :
    ∀ m ∈ ms.filter (fun m ↦ slot limit m = some (id, .events)), m.topic = .events := by
  intro m hm
  obtain ⟨x, -, hx⟩ := Option.map_eq_some_iff.mp (of_decide_eq_true (List.mem_filter.mp hm).2)
  exact (Prod.mk.inj hx).2

/-- The entries that the API derives, whatever the order of the partitions. -/
theorem Gathered.entries (h : Produce calls landed records)
    (hms : Gathered part (sent (calls.map Call.message) landed records) ms) (depth limit : ℕ)
    (clock : ℕ → Time) :
    ∃ state, consumeState depth limit clock .empty ms = some state ∧ ∀ id,
      ((device state id).online = true ↔ Present calls id) ∧
      (device state id).segmentsUploaded = (landed.filter fun x ↦ x.imei = id).length ∧
      (device state id).bytes =
        ((landed.filter fun x ↦ x.imei = id).map fun x ↦ (x.bytes : ℤ)).sum ∧
      (device state id).frames = Levels.framesOf id records ∧
      (device state id).tl = ((records.filter fun call ↦ call.key = id).map pointOf).drop
        ((records.filter fun call ↦ call.key = id).length - depth) ∧
      (device state id).signal =
        ((calls.filter fun call ↦ call.key = id ∧
          call.topic = .stat).getLast?.bind reportOf).getD .none := by
  obtain ⟨state, hstate, hslots⟩ := hms.consumed h depth limit clock
  refine ⟨state, hstate, fun id ↦ ?_⟩
  have hevents : ∀ m ∈ ms.filter (fun m ↦ slot limit m = some (id, .events)), m.topic = .events :=
    slot_events
  have honline : (device state id).online = ((device state id).part .events).online := rfl
  have hsegments : (device state id).segmentsUploaded =
      ((device state id).part .events).segmentsUploaded := rfl
  have hbytes : (device state id).bytes = ((device state id).part .events).bytes := rfl
  have hframes : (device state id).frames = ((device state id).part .levels).frames := rfl
  have htl : (device state id).tl = ((device state id).part .levels).tl := rfl
  have hsignal : (device state id).signal = ((device state id).part .stat).signal := rfl
  have hrecorded : ∀ call ∈ records.filter (fun call ↦ call.key = id), Levels.Recorded call :=
    fun call hcall ↦ h.levels call (List.mem_filter.mp hcall).1
  have hcounts := foldl_segments depth limit id hevents ((Device.new id).part .events)
  have hlevels := foldl_records depth limit id hrecorded
    (d := (Device.new id).part .levels) (Nat.zero_le _)
  refine ⟨?_, ?_, ?_, ?_, ?_, ?_⟩
  · have hflags := foldl_online depth limit id hevents (d := (Device.new id).part .events) rfl
    have hfilter : (ms.filter fun m ↦ slot limit m = some (id, .events)).filter
        (fun m ↦ (landedBytes limit m).isNone) =
        ms.filter fun m ↦ slot limit m = some (id, .events) ∧ (landedBytes limit m).isNone := by
      rw [List.filter_filter]
      apply List.filter_congr
      intro m _
      simp only [Bool.decide_and, Bool.decide_eq_true, Bool.and_comm]
    rw [honline, hslots, hflags, hfilter, hms.flag_slot h]
    exact foldl_present depth limit id h.ingest
  · rw [hsegments, hslots, hcounts.1, hms.landed_slot h, List.length_map]
    exact Nat.zero_add _
  · rw [hbytes, hslots, hcounts.2, hms.landed_slot h]
    exact Int.zero_add _
  · rw [hframes, hslots, hms.levels_slot h, hlevels.1]
    exact Int.zero_add _
  · rw [htl, hslots, hms.levels_slot h, hlevels.2]
    congr 1
    exact congrArg (· - depth) (Nat.zero_add _)
  · rw [hsignal, hslots, hms.stat_slot h, foldl_signal]
    · rfl
    · intro call hcall
      obtain ⟨hmem, hown⟩ := List.mem_filter.mp hcall
      have htopic : call.topic = .stat := (of_decide_eq_true hown).2
      have hsends : Sends .ingest call := .ingest (h.ingest call hmem)
      exact ⟨htopic, hsends.names (by rw [htopic]; decide)⟩

def taken (env : Levels.Env) (l : Levels.State) : List Call :=
  (l.produced.zipIdx.filter fun x ↦ env.takes x.2).map Prod.fst

/-- An API that is given all that the roles have produced, in any order of the partitions, rebuilds
their state: who is online in ingest and what was last reported there, what the segmenter has
stored, and what the levels role has measured. -/
theorem api_rebuilds {env : Env} {maxConcurrent maxPerMinute : ℤ} {es : List Event} {s : System}
    (hrun : run (System.step env) (.init maxConcurrent maxPerMinute) es = some s)
    (hbroker : ∀ n, env.broker n = .enqueued)
    {segmenter : Segmenter.Env} {es' : List Segmenter.Event} {t : Segmenter.State}
    (hsegments : run (Segmenter.step segmenter) .init es' = some t)
    (hstores : ∀ n, segmenter.stores n = true) (htakes : ∀ n, segmenter.takes n = true)
    {levels : Levels.Env} {es'' : List Segmenter.Event} {l : Levels.State}
    (hlevels : run (Levels.step levels) .init es'' = some l)
    (hdecode : ∀ past opus pcm, levels.decode past opus = some pcm → pcm.length % 2 = 0)
    (htaken : ∀ n, levels.takes n = true)
    (hms : Gathered part (sent s.ing.queue t.landed (taken levels l)) ms)
    (depth limit : ℕ) (clock : ℕ → Time) :
    ∃ state, consumeState depth limit clock .empty ms = some state ∧
      ∀ id, Accounts depth s t l id (device state id) := by
  have htables := run_tables hrun
  have htold := Segmenter.run_told hstores htakes hsegments
  have hqueue : s.ing.queue = s.ing.calls.map Call.message := by
    rw [htables.queue, delivered_enqueued env _ _ fun _ _ ↦ hbroker _]
  have hall : taken levels l = l.produced := by
    rw [taken, List.filter_eq_self.mpr fun x _ ↦ htaken x.2]
    exact List.zipIdx_map_fst ..
  have hnamed : ∀ x ∈ t.landed, x.imei ≠ [] := by
    intro x hx
    have hmem : (x.imei, x.bytes) ∈ t.puts.map fun p ↦ (p.seg.imei, p.data.length) :=
      htold ▸ List.mem_map_of_mem (f := fun l : Segmenter.Landed ↦ (l.imei, l.bytes)) hx
    obtain ⟨p, hp, heq⟩ := List.mem_map.mp hmem
    rw [← (Prod.mk.inj heq).1]
    exact Segmenter.run_puts_named hsegments p hp
  have hproduce : Produce s.ing.calls t.landed l.produced :=
    ⟨htables.wellmade, hnamed, Levels.run_recorded hlevels⟩
  rw [hqueue, hall] at hms
  obtain ⟨state, hstate, hentries⟩ := hms.entries hproduce depth limit clock
  refine ⟨state, hstate, fun id ↦ ?_⟩
  obtain ⟨honline, hsegmentsUploaded, hbytes, hframes, htl, hsignal⟩ := hentries id
  have hpairs : (t.landed.filter fun x ↦ x.imei = id).map (fun x ↦ (x.imei, x.bytes)) =
      (t.puts.filter fun p ↦ p.seg.imei = id).map fun p ↦ (p.seg.imei, p.data.length) := by
    have hfilter := congrArg (List.filter fun x : Str × ℕ ↦ decide (x.1 = id)) htold
    rwa [List.filter_map, List.filter_map] at hfilter
  constructor
  · exact honline.trans (htables.consistent id).symm
  · rw [hsegmentsUploaded]
    simpa using congrArg List.length hpairs
  · rw [hbytes]
    have hsizes := congrArg (List.map fun x : Str × ℕ ↦ (x.2 : ℤ)) hpairs
    rw [List.map_map, List.map_map] at hsizes
    exact congrArg List.sum hsizes
  · rw [hframes]
    exact Levels.run_accounted hdecode hlevels id
  · exact htl
  · exact hsignal

theorem api_rebuilds_live : ∃ s t l state,
    run (System.step (Env.calm .disabled)) (.init 64 120) (arrives 0) = some s ∧
      run (Segmenter.step Segmenter.everyMinute) .init [Segmenter.spoken [7], .interrupt] = some t ∧
      run (Levels.step Levels.silent) .init [Segmenter.spoken [7]] = some l ∧
      consumeState 3600 1000 (fun _ ↦ 1) .empty
        (inTurn (sent s.ing.queue t.landed (taken Levels.silent l))) = some state ∧
      (device state (lit "A")).online = true ∧ (device state (lit "A")).segmentsUploaded = 1 ∧
      (device state (lit "A")).frames + (l.meter (lit "A")).frames = 1 := by
  obtain ⟨s, hs, honline⟩ : ∃ s, run (System.step (Env.calm .disabled)) (.init 64 120) (arrives 0) =
    some s ∧
      (s.ing.online.get (lit "A")).isSome = true := Option.map_eq_some_iff.mp (by decide +kernel)
  obtain ⟨t, ht, hputs⟩ : ∃ t,
      run (Segmenter.step Segmenter.everyMinute) .init [Segmenter.spoken [7], .interrupt] = some t ∧
        (t.puts.filter fun p ↦ p.seg.imei = lit "A").length = 1 :=
          Option.map_eq_some_iff.mp (by decide +kernel)
  obtain ⟨l, hl, hdecoded⟩ : ∃ l, run (Levels.step Levels.silent) .init [Segmenter.spoken [7]] =
    some l ∧
      l.decoded.count (lit "A") = 1 := Option.map_eq_some_iff.mp (by decide +kernel)
  obtain ⟨state, hstate, haccounts⟩ :=
    api_rebuilds hs (fun _ ↦ rfl) ht (fun _ ↦ rfl) (fun _ ↦ rfl) hl
      (fun _ _ _ ↦ Levels.silent_decode) (fun _ ↦ rfl) (gathered_inTurn _) 3600 1000 fun _ ↦ 1
  obtain ⟨hflag, hsegments, -, hframes, -, -⟩ := haccounts (lit "A")
  refine ⟨s, t, l, state, hs, ht, hl, hstate, hflag.mpr honline, hsegments.trans hputs, ?_⟩
  rw [hframes, hdecoded]
  rfl

end Accounts

end Api

end OpusFleet.Server
