import OpusFleet.Library.Shuffle
import OpusFleet.Server.Api
import OpusFleet.Server.Segmenter

namespace OpusFleet.Server.Api

open Python Library Protocol

section Messages

def Counted (entries : List (Str × Value)) : Topic → Prop
  | .events => Assoc.get entries (lit "event") = some (.str (lit "segment")) →
      (count (Assoc.get entries (lit "bytes"))).isSome
  | .levels => (count (Assoc.get entries (lit "f"))).isSome
  | .audio | .stat => True

/-- A message that cannot be decoded, or an object of a device. -/
inductive Sound (limit : ℕ) (m : Message) : Prop
  | undecodable (e : Exc) (value : jload limit m.value = .error e)
      (skipped : e = .value ∨ e = .unicode)
  | object (entries : List (Str × Value)) (id : Str) (value : jload limit m.value =
    .ok (.dict entries))
      (imei : imeiOf entries m.key = some id) (counted : Counted entries m.topic)

def owner (limit : ℕ) (m : Message) : Option Str :=
  match jload limit m.value with
  | .ok (.dict entries) => imeiOf entries m.key
  | _ => none

theorem owner_of_dict {limit : ℕ} {m : Message} {entries : List (Str × Value)}
    (h : jload limit m.value = .ok (.dict entries)) : owner limit m = imeiOf entries m.key := by
  rw [owner, h]

theorem sound_of_named (limit : ℕ) {call : Call} {entries : List (Str × Value)}
    (hvalue : call.value = .json (.dict entries))
    (himei : Assoc.get entries (lit "imei") = some (.str call.key))
    (hcounted : Counted entries call.topic) : Sound limit call.message := by
  have hload : jload limit call.message.value = .ok (.dict entries) := by
    rw [Call.message, hvalue, jload]
  cases hkey : call.key with
  | nil =>
    refine .object entries (lit "unknown") hload ?_ hcounted
    rw [hkey] at himei
    simp [imeiOf, himei, falsy, Call.message, hkey, encode]
  | cons c cs =>
    exact .object entries (c :: cs) hload (imeiOf_eq _ (by simp) (hkey ▸ himei)) hcounted

theorem Wellmade.sound {call : Call} (h : Wellmade call) (hsub : call.topic ≠ .audio) (limit : ℕ) :
    Sound limit call.message := by
  obtain ⟨entries, hvalue, himei⟩ := h.value hsub
  apply sound_of_named limit hvalue himei
  have hfield (name : Str) : call.field name = Assoc.get entries name := by rw [Call.field, hvalue]
  cases ht : call.topic with
  | events =>
    intro hsegment
    have hevent : call.field (lit "event") = some (.str (lit "connect")) ∨
        call.field (lit "event") = some (.str (lit "disconnect")) :=
      (h.event ht).imp (fun hann ↦ (event_eq call).mp hann.2.2) fun hret ↦
        (event_eq call).mp hret.2.2
    rw [hfield, hsegment] at hevent
    simp only [Option.some.injEq, Value.str.injEq] at hevent
    exact absurd hevent (by decide)
  | levels => exact absurd ht h.topic
  | stat => trivial
  | audio => trivial

def segmentEvent (landed : Segmenter.Landed) : Call where
  topic := .events
  key := landed.imei
  value := .json (.dict [(lit "imei", .str landed.imei), (lit "event", .str (lit "segment")),
    (lit "key", .str landed.key), (lit "bytes", .int landed.bytes),
    (lit "duration", .float (.finite landed.duration)), (lit "at", .float (.finite landed.time))])

def levelRecord (imei : Str) (t : ℤ) (db pk : PyFloat) (f : ℕ) : Call where
  topic := .levels
  key := imei
  value := .json (.dict [(lit "t", .int t), (lit "db", .float db), (lit "pk", .float pk),
    (lit "f", .int f), (lit "imei", .str imei)])

theorem segmentEvent_sound (limit : ℕ) (landed : Segmenter.Landed) :
    Sound limit (segmentEvent landed).message :=
  sound_of_named limit rfl rfl fun _ ↦ rfl

theorem levelRecord_sound (limit : ℕ) (imei : Str) (t : ℤ) (db pk : PyFloat) (f : ℕ) :
    Sound limit (levelRecord imei t db pk f).message :=
  sound_of_named limit rfl rfl rfl

end Messages

section Windows

variable {depth limit : ℕ} {now : Time} {entries : List (Str × Value)} {d d' : Device} {t : Topic}

/-- The part of an entry that the messages of a topic write, the time of the last message apart. -/
def Device.part (d : Device) : Topic → Device
  | .events =>
    { Device.new d.imei with
      online := d.online
      connectedAt := d.connectedAt
      addr := d.addr
      segmentsUploaded := d.segmentsUploaded
      bytes := d.bytes }
  | .stat => { Device.new d.imei with signal := d.signal }
  | .levels => { Device.new d.imei with frames := d.frames, tl := d.tl }
  | .audio => Device.new d.imei

def Device.unseen (d : Device) : Device := { d with lastSeen := .none }

theorem unseen_eq (h : ∀ t, d.part t = d'.part t) : d.unseen = d'.unseen := by
  have hevents := h .events
  have hstat := h .stat
  have hlevels := h .levels
  simp only [Device.part, Device.new, Device.mk.injEq] at hevents hstat hlevels
  simp only [Device.unseen, Device.mk.injEq]
  tauto

theorem update_total (depth : ℕ) (now : Time) (d : Device) (h : Counted entries t) :
    (update depth now t entries d).isSome := by
  cases t with
  | events =>
    rw [update]
    split
    · next event hevent =>
      split
      · next hsegment =>
        rw [Option.isSome_map]
        exact h (hsegment ▸ hevent)
      · split <;> rfl
    · rfl
  | stat => rfl
  | levels =>
    rw [update, Option.isSome_map]
    exact h
  | audio => rfl

theorem update_frame {t' : Topic} (h : update depth now t entries d = some d') (ht : t ≠ t') :
    d'.part t' = d.part t' := by
  cases t with
  | events =>
    have hd' : d' = { d with
        online := d'.online, connectedAt := d'.connectedAt, addr := d'.addr,
        segmentsUploaded := d'.segmentsUploaded, bytes := d'.bytes } := by
      rw [update] at h
      split at h
      · split at h
        · obtain ⟨n, -, rfl⟩ := Option.map_eq_some_iff.mp h
          rfl
        · split at h
          · obtain rfl := Option.some.inj h
            rfl
          · obtain rfl := Option.some.inj h
            rfl
      · obtain rfl := Option.some.inj h
        rfl
    rw [hd']
    cases t' with
    | events => exact absurd rfl ht
    | stat | levels | audio => rfl
  | stat =>
    obtain rfl := Option.some.inj h
    cases t' with
    | stat => exact absurd rfl ht
    | events | levels | audio => rfl
  | levels =>
    rw [update] at h
    obtain ⟨n, -, rfl⟩ := Option.map_eq_some_iff.mp h
    cases t' with
    | levels => exact absurd rfl ht
    | events | stat | audio => rfl
  | audio =>
    obtain rfl := Option.some.inj h
    rfl

theorem update_part (depth : ℕ) (now now' : Time) (t : Topic)
    (entries : List (Str × Value)) (d : Device) :
    (update depth now t entries d).map (·.part t) =
      (update depth now' t entries (d.part t)).map (·.part t) := by
  cases t with
  | events =>
    simp only [update]
    cases Assoc.get entries (lit "event") with
    | none => rfl
    | some value =>
      cases value with
      | str event =>
        by_cases hsegment : event = lit "segment"
        · simp only [if_pos hsegment, Option.map_map]
          rfl
        · simp only [if_neg hsegment]
          by_cases hconnect : event = lit "connect"
          · simp only [if_pos hconnect]
            rfl
          · simp only [if_neg hconnect]
            rfl
      | none | bool | int | float | list | dict => rfl
  | stat => rfl
  | levels =>
    simp only [update, Option.map_map]
    rfl
  | audio => rfl

theorem update_own (h : update depth now t entries d = some d') :
    d'.part t = ((update depth 0 t entries (d.part t)).getD (d.part t)).part t := by
  have hpart := update_part depth now 0 t entries d
  rw [h, Option.map_some] at hpart
  obtain ⟨own, hown, howned⟩ := Option.map_eq_some_iff.mp hpart.symm
  rw [hown, Option.getD_some, howned]

end Windows

section Consumption

variable (depth limit : ℕ) {now : Time} {state state' : State} {m : Message} {ms : List Message}

/-- The device and the topic whose part of an entry a message writes. -/
def slot (m : Message) : Option (Str × Topic) := (owner limit m).map fun id ↦ (id, m.topic)

def write (k : Str × Topic) (m : Message) (d : Device) : Device :=
  match jload limit m.value with
  | .ok (.dict entries) => ((update depth 0 m.topic entries d).getD d).part k.2
  | _ => d

def shown (k : Str × Topic) (state : State) : Device := (device state k.1).part k.2

variable {depth limit}

theorem consume_cases (h : consume depth limit now state m = some state') :
    owner limit m = none ∧ state' = state ∨
      ∃ entries id d, jload limit m.value = .ok (.dict entries) ∧ owner limit m = some id ∧
        update depth now m.topic entries (device state id) = some d ∧ state' = state.set id d := by
  rw [consume] at h
  split at h
  · next hload => exact .inl ⟨by rw [owner, hload], (Option.some.inj h).symm⟩
  · next hload => exact .inl ⟨by rw [owner, hload], (Option.some.inj h).symm⟩
  · next entries hload =>
    obtain ⟨id, hid, hupdate⟩ := Option.bind_eq_some_iff.mp h
    obtain ⟨d, hd, rfl⟩ := Option.map_eq_some_iff.mp hupdate
    exact .inr ⟨entries, id, d, hload, (owner_of_dict hload).trans hid, hd, rfl⟩
  · cases h

theorem consume_total (depth : ℕ) (now : Time) (state : State) (h : Sound limit m) :
    (consume depth limit now state m).isSome := by
  cases h with
  | undecodable e hload hskipped =>
    rw [consume, hload]
    rcases hskipped with rfl | rfl <;> rfl
  | object entries id hload himei hcounted =>
    obtain ⟨d, hd⟩ := Option.isSome_iff_exists.mp
      (update_total depth now (device state id) hcounted)
    simp only [consume, hload, himei, Option.bind_some, hd]
    rfl

theorem device_set (state : State) (id : Str) (d : Device) (x : Str) :
    device (state.set id d) x = if x = id then d else device state x := by
  rw [device, Dict.get_set]
  split <;> rfl

def turn (depth limit : ℕ) (state : State) (b : Time × Message) : Option State :=
  consume depth limit b.1 state b.2

/-- Every slot of the state is written by its own messages only. -/
theorem turn_separable :
    Separable (turn depth limit) Prod.snd (slot limit) shown (write depth limit) := by
  constructor
  · intro state b state' k h hk
    rcases consume_cases h with ⟨-, rfl⟩ | ⟨entries, id, d, -, howner, hd, rfl⟩
    · rfl
    · rw [shown, shown, device_set]
      by_cases hid : k.1 = id
      · have htopic : b.2.topic ≠ k.2 := fun htopic ↦ hk (by rw [slot, howner, htopic, ← hid]; rfl)
        rw [if_pos hid, update_frame hd htopic, hid]
      · rw [if_neg hid]
  · intro state b state' k h hk
    obtain ⟨id, hid, rfl⟩ := Option.map_eq_some_iff.mp hk
    rcases consume_cases h with ⟨hnone, -⟩ | ⟨entries, id', d, hload, howner, hd, rfl⟩
    · rw [hnone] at hid
      cases hid
    · obtain rfl := Option.some.inj (howner.symm.trans hid)
      rw [shown, device_set, if_pos rfl, write, hload]
      exact update_own hd

def stamped (clock : ℕ → Time) : List Message → List (Time × Message)
  | [] => []
  | m :: ms => (clock 0, m) :: stamped (fun n ↦ clock (n + 1)) ms

theorem stamped_snd (clock : ℕ → Time) (ms : List Message) :
    (stamped clock ms).map Prod.snd = ms := by
  induction ms generalizing clock with
  | nil => rfl
  | cons m ms ih => rw [stamped, List.map_cons, ih]

theorem consumeState_eq_run (clock : ℕ → Time) (state : State) (h : ∀ m ∈ ms, subscribed m) :
    consumeState depth limit clock state ms = Runs.run (turn depth limit) state
      (stamped clock ms) := by
  induction ms generalizing clock state with
  | nil => rfl
  | cons m ms ih =>
    rw [consumeState, if_pos (h m List.mem_cons_self), stamped, Runs.run_cons]
    congr 1
    funext state
    exact ih _ state fun m' hm' ↦ h m' (List.mem_cons_of_mem _ hm')

theorem run_total (depth : ℕ) {bs : List (Time × Message)} (h : ∀ b ∈ bs, Sound limit b.2)
    (state : State) :
    (Runs.run (turn depth limit) state bs).isSome := by
  induction bs generalizing state with
  | nil => rfl
  | cons b bs ih =>
    obtain ⟨m, hm⟩ := Option.isSome_iff_exists.mp
      (consume_total depth b.1 state (h b List.mem_cons_self))
    rw [Runs.run_cons, turn, hm]
    exact ih (fun b' hb' ↦ h b' (List.mem_cons_of_mem _ hb')) m

theorem turn_entry {b : Time × Message} (h : turn depth limit state b = some state') (id : Str) :
    (state'.get id).isSome ↔ (state.get id).isSome ∨ owner limit b.2 = some id := by
  rcases consume_cases h with ⟨hnone, rfl⟩ | ⟨entries, x, d, -, howner, -, rfl⟩
  · simp [hnone]
  · rw [Dict.get_set, howner]
    by_cases hx : id = x
    · simp [hx]
    · simp [hx, Ne.symm hx]

theorem run_entry {bs : List (Time × Message)}
    (h : Runs.run (turn depth limit) state bs = some state') (id : Str) : (state'.get id).isSome ↔
      (state.get id).isSome ∨ ∃ m ∈ bs.map Prod.snd, owner limit m = some id := by
  induction bs generalizing state with
  | nil =>
    obtain rfl : state = state' := by simpa using h
    simp
  | cons b bs ih =>
    obtain ⟨m, hm, hrest⟩ := Option.bind_eq_some_iff.mp h
    rw [ih hrest, turn_entry hm]
    simp only [List.map_cons, List.mem_cons, exists_eq_or_imp, or_assoc]

end Consumption

section Topics

/-- The logs of the three topics by topic and partition: all messages of a device on
a topic are on one partition. -/
structure Logs (limit : ℕ) where
  log : Topic × ℕ → List Message
  topic : ∀ k, ∀ m ∈ log k, m.topic = k.1 ∧ subscribed m
  sound : ∀ k, ∀ m ∈ log k, Sound limit m
  fixed : ∀ t i j, ∀ m ∈ log (t, i), ∀ m' ∈ log (t, j), ∀ id, owner limit m = some id →
    owner limit m' = some id → i = j

def Logs.single {limit : ℕ} (ms : List Message) (h : ∀ m ∈ ms, subscribed m ∧ Sound limit m) :
    Logs limit where
  log k := if k.2 = 0 then ms.filter fun m ↦ m.topic = k.1 else []
  topic k m hm := by
    split at hm
    · obtain ⟨hmem, htopic⟩ := List.mem_filter.mp hm
      exact ⟨of_decide_eq_true htopic, (h m hmem).1⟩
    · cases hm
  sound k m hm := by
    split at hm
    · exact (h m (List.mem_filter.mp hm).1).2
    · cases hm
  fixed t i j m hm m' hm' id _ _ := by
    split at hm
    · next hi =>
      split at hm'
      · next hj => exact hi.trans hj.symm
      · cases hm'
    · cases hm

theorem Logs.single_shuffle {limit : ℕ} {ms : List Message}
    (h : ∀ m ∈ ms, subscribed m ∧ Sound limit m) (ms' : List Message)
    (hsame : ∀ t, ms'.filter (fun m ↦ m.topic = t) = ms.filter fun m ↦ m.topic = t) :
    Shuffle (Logs.single ms h).log (ms'.map fun m ↦ ((m.topic, 0), m)) := by
  intro k
  obtain ⟨t, i⟩ := k
  have hid : Prod.snd ∘ (fun m : Message ↦ ((m.topic, 0), m)) = id := rfl
  have hlog : (single ms h).log (t, i) = if i = 0 then ms.filter fun m ↦ m.topic = t else [] := rfl
  rw [List.filter_map, List.map_map, hid, List.map_id, hlog]
  by_cases hi : i = 0
  · subst hi
    rw [if_pos rfl, ← hsame t]
    apply List.filter_congr
    intro m _
    simp
  · rw [if_neg hi, List.filter_eq_nil_iff]
    intro m _
    simp [Ne.symm hi]

variable {limit : ℕ} (logs : Logs limit)

variable {logs} in
theorem slot_same {xs ys : List ((Topic × ℕ) × Message)} (hx : Shuffle logs.log xs)
    (hy : Shuffle logs.log ys) (k : Str × Topic) :
    (xs.map Prod.snd).filter (fun m ↦ slot limit m = some k) =
      (ys.map Prod.snd).filter fun m ↦ slot limit m = some k := by
  have hslot {m : Message} (hm : slot limit m = some k) : owner limit m = some k.1 ∧
      m.topic = k.2 := by
    obtain ⟨id, hid, rfl⟩ := Option.map_eq_some_iff.mp hm
    exact ⟨hid, rfl⟩
  apply hx.filter_eq hy
  intro k₁ k₂ m m' hm hm' hk hk'
  obtain ⟨t, i⟩ := k₁
  obtain ⟨t', j⟩ := k₂
  obtain ⟨hid, htopic⟩ := hslot (of_decide_eq_true hk)
  obtain ⟨hid', htopic'⟩ := hslot (of_decide_eq_true hk')
  obtain rfl : t = t' := (logs.topic _ m hm).1.symm.trans
    ((htopic.trans htopic'.symm).trans (logs.topic _ m' hm').1)
  rw [logs.fixed t i j m hm m' hm' k.1 hid hid']

variable {logs} in
theorem consumed {xs : List ((Topic × ℕ) × Message)} (hx : Shuffle logs.log xs) (depth : ℕ)
    (state : State) (clock : ℕ → Time) :
    ∃ s, consumeState depth limit clock state (xs.map Prod.snd) = some s ∧
      Runs.run (turn depth limit) state (stamped clock (xs.map Prod.snd)) = some s := by
  have hlog : ∀ m ∈ xs.map Prod.snd, subscribed m ∧ Sound limit m := by
    intro m hm
    obtain ⟨k, hk⟩ := hx.mem_map.mp hm
    exact ⟨(logs.topic k m hk).2, logs.sound k m hk⟩
  have hsound : ∀ b ∈ stamped clock (xs.map Prod.snd), Sound limit b.2 := by
    intro b hb
    refine (hlog b.2 ?_).2
    rw [← stamped_snd clock (xs.map Prod.snd)]
    exact List.mem_map_of_mem hb
  obtain ⟨s, hs⟩ := Option.isSome_iff_exists.mp (run_total depth hsound state)
  exact ⟨s, (consumeState_eq_run clock state fun m hm ↦ (hlog m hm).1).trans hs, hs⟩

/-- Two orders of consumption, each true to every partition, leave every device the same entry, the
time of its last message apart. -/
theorem consumeState_confluent (depth : ℕ) (state : State) (clock clock' : ℕ → Time)
    {xs ys : List ((Topic × ℕ) × Message)} (hx : Shuffle logs.log xs) (hy : Shuffle logs.log ys) :
    ∃ s s', consumeState depth limit clock state (xs.map Prod.snd) = some s ∧
      consumeState depth limit clock' state (ys.map Prod.snd) = some s' ∧
      ∀ id, (s.get id).map Device.unseen = (s'.get id).map Device.unseen := by
  obtain ⟨s, hs, hrun⟩ := consumed hx depth state clock
  obtain ⟨s', hs', hrun'⟩ := consumed hy depth state clock'
  refine ⟨s, s', hs, hs', fun id ↦ ?_⟩
  have hpart : (device s id).unseen = (device s' id).unseen := by
    refine unseen_eq fun t ↦ ?_
    apply turn_separable.confluent hrun hrun' (k := (id, t))
    intro k
    rw [stamped_snd, stamped_snd]
    exact slot_same hx hy k
  have hentry : (s.get id).isSome ↔ (s'.get id).isSome := by
    rw [run_entry hrun, run_entry hrun', stamped_snd, stamped_snd]
    simp only [hx.mem_map, hy.mem_map]
  rw [device, device] at hpart
  cases hget : s.get id with
  | none =>
    cases hget' : s'.get id with
    | none => rfl
    | some d' => simp [hget, hget'] at hentry
  | some d =>
    cases hget' : s'.get id with
    | none => simp [hget, hget'] at hentry
    | some d' => simpa [hget, hget'] using hpart

theorem consumeState_confluent_two :
    let connect :=
  (⟨.events, lit "A", Ingest.connectEvent (lit "A") ⟨lit "h", lit "h:1"⟩ (.int 1)⟩ : Call)
    let landed := segmentEvent ⟨lit "A", lit "A/1", 7, 1, 2⟩
    let level := levelRecord (lit "A") 3 .negZero .negZero 50
    ∃ s s', consumeState 900 1000 (fun _ ↦ 1) .empty
        [connect.message, landed.message, level.message] = some s ∧
      consumeState 900 1000 (fun _ ↦ 2) .empty
        [level.message, connect.message, landed.message] = some s' ∧
      ∀ id, (s.get id).map Device.unseen = (s'.get id).map Device.unseen := by
  intro connect landed level
  have hsound : ∀ m ∈ [connect.message, landed.message, level.message],
      subscribed m ∧ Sound 1000 m := by
    intro m hm
    simp only [List.mem_cons, List.not_mem_nil, or_false] at hm
    rcases hm with rfl | rfl | rfl
    · exact ⟨rfl, sound_of_named _ rfl rfl fun h ↦ by simp [lit, Assoc.get] at h⟩
    · exact ⟨rfl, segmentEvent_sound _ _⟩
    · exact ⟨rfl, levelRecord_sound _ _ _ _ _ _⟩
  have hsame (t : Topic) : [level.message, connect.message, landed.message].filter
      (fun m ↦ m.topic = t) =
        [connect.message, landed.message, level.message].filter fun m ↦ m.topic = t := by
    have hconnect : connect.message.topic = .events := rfl
    have hlanded : landed.message.topic = .events := rfl
    have hlevel : level.message.topic = .levels := rfl
    cases t <;> simp [hconnect, hlanded, hlevel]
  exact consumeState_confluent (.single _ hsound) 900 .empty (fun _ ↦ 1) (fun _ ↦ 2)
    (Logs.single_shuffle hsound [connect.message, landed.message, level.message] fun _ ↦ rfl)
    (Logs.single_shuffle hsound [level.message, connect.message, landed.message] hsame)

end Topics

end OpusFleet.Server.Api
