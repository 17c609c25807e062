import OpusFleet.Library.Shuffle
import OpusFleet.Server.Calls
import OpusFleet.Server.Rotation
import OpusFleet.Server.Telemetry

namespace OpusFleet.Server

open Python Library Library.Runs

section Partitions

variable {κ : Type} [DecidableEq κ]

/-- The partitions of a topic: what the broker took for it, divided by the keys. -/
def partition (part : Bytes → κ) (topic : Topic) (queue : List Message) (k : κ) : List Message :=
  queue.filter fun m ↦ m.topic = topic ∧ part m.key = k

def polled (es : List Segmenter.Event) : List (Option Bytes × Bytes) :=
  es.filterMap fun
    | .message key value => some (key, value)
    | _ => none

def Message.record (m : Message) : Option Bytes × Bytes := (some m.key, m.value.bytes)

/-- A consumer that was given a whole topic, each partition in its own order. -/
def Fed (part : Bytes → κ) (topic : Topic) (queue : List Message)
    (es : List Segmenter.Event) : Prop :=
  ∃ xs, Shuffle (partition part topic queue) xs ∧ polled es = xs.map fun x ↦ x.2.record

variable {part : Bytes → κ} {topic : Topic} {queue : List Message} {es : List Segmenter.Event}

theorem Fed.mem (h : Fed part topic queue es) {r : Option Bytes × Bytes} :
    r ∈ polled es ↔ ∃ m ∈ queue, m.topic = topic ∧ m.record = r := by
  obtain ⟨xs, hxs, hpolled⟩ := h
  have hmem (m : Message) : m ∈ xs.map Prod.snd ↔ m ∈ queue ∧ m.topic = topic := by
    simp [hxs.mem_map, partition]
  have hsplit : (xs.map fun x ↦ x.2.record) = (xs.map Prod.snd).map Message.record := by simp
  rw [hpolled, hsplit, List.mem_map]
  constructor
  · rintro ⟨m, hm, hr⟩
    exact ⟨m, ((hmem m).mp hm).1, ((hmem m).mp hm).2, hr⟩
  · rintro ⟨m, hm, ht, hr⟩
    exact ⟨m, (hmem m).mpr ⟨hm, ht⟩, hr⟩

theorem Fed.key (h : Fed part topic queue es) (key : Bytes) :
    (polled es).filter (fun r ↦ r.1 = some key) =
      (queue.filter fun m ↦ m.topic = topic ∧ m.key = key).map Message.record := by
  obtain ⟨xs, hxs, hpolled⟩ := h
  have hone : ∀ k (m : Message), m ∈ partition part topic queue k → decide (m.key = key) = true →
      k = part key := by
    intro k m hm hkey
    obtain ⟨-, -, hk⟩ : m ∈ queue ∧ m.topic = topic ∧ part m.key = k := by
      simpa [partition] using hm
    rw [← hk, of_decide_eq_true hkey]
  have hlog := hxs.filter_of_log (fun m ↦ decide (m.key = key)) (part key) hone
  have hsplit : (xs.map fun x ↦ x.2.record) = (xs.map Prod.snd).map Message.record := by simp
  rw [hpolled, hsplit, List.filter_map]
  have hrecord : ((fun r : Option Bytes × Bytes ↦ decide (r.1 = some key)) ∘ Message.record) =
      fun m ↦ decide (m.key = key) := by
    funext m
    simp [Message.record]
  rw [hrecord, hlog, partition, List.filter_filter]
  congr 1
  apply List.filter_congr
  intro m _
  by_cases hkey : m.key = key <;> simp [hkey]

def replay (topic : Topic) (queue : List Message) : List Segmenter.Event :=
  (queue.filter fun m ↦ m.topic = topic).map fun m ↦ .message (some m.key) m.value.bytes

theorem fed_replay (topic : Topic) (queue : List Message) :
    Fed (fun _ ↦ ()) topic queue (replay topic queue) := by
  refine ⟨(queue.filter fun m ↦ m.topic = topic).map fun m ↦ ((), m), ?_, ?_⟩
  · intro k
    have hall : (queue.filter fun m ↦ m.topic = topic) = partition (fun _ ↦ ()) topic queue k := by
      simp [partition]
    rw [List.filter_eq_self.mpr (by simp), List.map_map, ← hall]
    exact List.map_id _
  · simp [polled, replay, List.filterMap_map, Message.record, Function.comp_def]

end Partitions

section Keys

variable {env : Env} {s : System} {es : List Event} {maxConcurrent maxPerMinute : ℤ}

theorem run_keys (hrun : run (System.step env) (.init maxConcurrent maxPerMinute) es = some s) :
    ∀ m ∈ s.ing.queue, ∃ id, m.key = encode id ∧ Ascii id ∧ id ≠ [] := by
  intro m hm
  have hutters : ∀ peer, Utters env peer fun call ↦ Ascii call.key := fun peer ↦
    ⟨fun _ _ h ↦ h, fun _ _ h ↦ h, fun _ _ _ _ h _ ↦ h, fun _ _ h ↦ h⟩
  have hlegible := run_legible (fun _ peer _ _ ↦ hutters peer) hrun
  have htables := run_tables hrun
  rw [htables.queue] at hm
  obtain ⟨call, hcall, rfl⟩ := delivered_mem hm
  exact ⟨call.key, rfl, hlegible.calls call hcall, (htables.wellmade call hcall).key⟩

theorem keyText_encode {id : Str} (h : Ascii id) (hne : id ≠ []) :
    Segmenter.keyText (some (encode id)) = .ok id := by
  have hencode := encode_ascii h
  obtain ⟨c, cs, rfl⟩ := List.exists_cons_of_ne_nil hne
  rw [List.map_cons] at hencode
  rw [hencode, Segmenter.keyText, ← hencode, decode_encode h]

end Keys

end OpusFleet.Server
