import OpusFleet.Library.Window
import OpusFleet.Server.Confluence

namespace OpusFleet.Server.Api

open Python Library Protocol

section Sightings

variable {depth limit : ℕ} {clock : ℕ → Time} {state state' : State} {imei : Str}

def seenAt (now : Time) (entries : List (Str × Value)) : Topic → Option Value
  | .levels => some (.float (.finite now))
  | .stat => some ((Assoc.get entries (lit "at")).getD (.float (.finite now)))
  | .events | .audio => none

def sighting (limit : ℕ) (imei : Str) (b : Time × Message) : Option Value :=
  match jload limit b.2.value with
  | .ok (.dict entries) => if imeiOf entries b.2.key = some imei
    then seenAt b.1 entries b.2.topic else none
  | _ => none

theorem update_lastSeen {now : Time} {t : Topic} {entries : List (Str × Value)} {d d' : Device}
    (h : update depth now t entries d = some d') :
    d'.lastSeen = (seenAt now entries t).getD d.lastSeen := by
  cases t with
  | events =>
    rw [update] at h
    split at h
    · split at h
      · obtain ⟨n, -, rfl⟩ := Option.map_eq_some_iff.mp h
        rfl
      · split at h <;> exact Option.some.inj h ▸ rfl
    · exact Option.some.inj h ▸ rfl
  | levels =>
    obtain ⟨n, -, rfl⟩ := Option.map_eq_some_iff.mp h
    rfl
  | stat | audio => exact Option.some.inj h ▸ rfl

theorem turn_lastSeen {b : Time × Message}
    (h : turn depth limit state b = some state') (imei : Str) :
    (device state' imei).lastSeen = (sighting limit imei b).getD (device state imei).lastSeen := by
  rcases consume_cases h with ⟨hnone, rfl⟩ | ⟨entries, id, d, hload, howner, hd, rfl⟩
  · have hsilent : sighting limit imei b = none := by
      rw [owner] at hnone
      rw [sighting]
      split
      · next entries hload =>
        rw [hload] at hnone
        exact if_neg (by simp [hnone])
      · rfl
    rw [hsilent, Option.getD_none]
  · rw [owner_of_dict hload] at howner
    rw [device_set]
    by_cases hid : imei = id
    · subst hid
      rw [if_pos rfl, update_lastSeen hd, sighting, hload]
      dsimp only
      rw [if_pos howner]
    · have hsilent : sighting limit imei b = none := by
        rw [sighting, hload]
        exact if_neg (by simpa [howner] using Ne.symm hid)
      rw [if_neg hid, hsilent, Option.getD_none]

theorem run_lastSeen {bs : List (Time × Message)}
    (h : Runs.run (turn depth limit) state bs = some state')
    (imei : Str) : (device state' imei).lastSeen =
      ((bs.filterMap (sighting limit imei)).getLast?).getD (device state imei).lastSeen := by
  induction bs using List.reverseRecOn generalizing state' with
  | nil =>
    obtain rfl := Option.some.inj h
    rfl
  | append_singleton bs b ih =>
    obtain ⟨m, hm, hb⟩ := (Runs.run_concat _).mp h
    rw [turn_lastSeen hb, ih hm, List.filterMap_append]
    cases hsight : sighting limit imei b with
    | none => simp [hsight]
    | some v => simp [hsight]

end Sightings

section Forward

variable {depth limit : ℕ} {clock : ℕ → Time} {ms : List Message} {imei : Str}

/-- Both are times, and the first is not after the second. -/
def NotAfter : Value → Value → Prop
  | .float (.finite a), .float (.finite b) => a ≤ b
  | _, _ => False

/-- Once it is set, `last_seen` of a device goes only forward from one message to a later one. -/
def Forward (depth limit : ℕ) (clock : ℕ → Time) (ms : List Message) (imei : Str) : Prop :=
  ∀ k k' state state', k ≤ k' → consumeState depth limit clock .empty (ms.take k) = some state →
    consumeState depth limit clock .empty (ms.take k') = some state' →
    (device state imei).lastSeen ≠ .none →
    NotAfter (device state imei).lastSeen (device state' imei).lastSeen

/-- A STAT carries the time at which ingest produced it, and is not consumed before. -/
def Stamped (limit : ℕ) (b : Time × Message) : Prop :=
  b.2.topic = .stat → ∀ entries, jload limit b.2.value = .ok (.dict entries) →
    ∃ t : ℚ, Assoc.get entries (lit "at") = some (.float (.finite t)) ∧ t ≤ b.1

/-- The message tells of the device at the time `t`: a record of its levels when it is
consumed, a STAT when it was produced. -/
def Dates (limit : ℕ) (imei : Str) (b : Time × Message) (t : ℚ) : Prop :=
  ∃ entries, jload limit b.2.value = .ok (.dict entries) ∧ imeiOf entries b.2.key = some imei ∧
    (b.2.topic = .levels ∧ t = b.1 ∨
      b.2.topic = .stat ∧ Assoc.get entries (lit "at") = some (.float (.finite t)))

theorem stat_stamped (imei : Str) (entries : List (Str × Value)) {t now : Time} (ht : t ≤ now) :
    Stamped limit
      (now, (⟨.stat, imei,
        Ingest.statReport imei entries (.float (.finite t))⟩ : Call).message) := by
  intro _ entries' hload
  obtain rfl := Value.dict.inj (Except.ok.inj hload)
  have hne : lit "at" ≠ lit "imei" := by decide
  exact ⟨t, by rw [Assoc.get_set, if_neg hne, Assoc.get_set, if_pos rfl], ht⟩

section Dates

variable {b b' : Time × Message} {v : Value}

theorem mem_sighting_iff (hb : Stamped limit b) :
    v ∈ sighting limit imei b ↔ ∃ t, v = .float (.finite t) ∧ Dates limit imei b t := by
  constructor
  · intro hv
    rw [sighting] at hv
    split at hv
    · next entries hload =>
      split at hv
      · next himei =>
        cases htopic : b.2.topic with
        | levels =>
          rw [htopic] at hv
          exact ⟨b.1, (Option.some.inj hv).symm, entries, hload, himei, .inl ⟨htopic, rfl⟩⟩
        | stat =>
          obtain ⟨t, hat, -⟩ := hb htopic entries hload
          rw [htopic, seenAt, hat] at hv
          exact ⟨t, (Option.some.inj hv).symm, entries, hload, himei, .inr ⟨htopic, hat⟩⟩
        | events | audio => exact absurd hv (by simp [htopic, seenAt])
      · cases hv
    · cases hv
  · rintro ⟨t, rfl, entries, hload, himei, ⟨htopic, rfl⟩ | ⟨htopic, hat⟩⟩
    · rw [sighting, hload, htopic]
      exact if_pos himei
    · rw [sighting, hload, htopic]
      dsimp only
      rw [if_pos himei, seenAt, hat]
      rfl

theorem Dates.le (hb : Stamped limit b) {t : ℚ} (h : Dates limit imei b t) : t ≤ b.1 := by
  obtain ⟨entries, hload, -, ⟨-, rfl⟩ | ⟨htopic, hat⟩⟩ := h
  · exact le_refl (b.1 : ℚ)
  · obtain ⟨t', hat', ht'⟩ := hb htopic entries hload
    obtain rfl : t = t' := by simpa [hat] using hat'
    exact ht'

theorem sighting_forward_iff (hb : Stamped limit b) (hb' : Stamped limit b') (hle : b.1 ≤ b'.1) :
    (∀ v ∈ sighting limit imei b, ∀ v' ∈ sighting limit imei b', NotAfter v v') ↔
      ∀ t t', b'.2.topic = .stat → Dates limit imei b t → Dates limit imei b' t' → t ≤ t' := by
  constructor
  · intro h t t' _ ht ht'
    exact h _ ((mem_sighting_iff hb).mpr ⟨t, rfl, ht⟩) _ ((mem_sighting_iff hb').mpr ⟨t', rfl, ht'⟩)
  · intro h v hv v' hv'
    obtain ⟨t, rfl, ht⟩ := (mem_sighting_iff hb).mp hv
    obtain ⟨t', rfl, ht'⟩ := (mem_sighting_iff hb').mp hv'
    have hsplit := ht'
    obtain ⟨-, -, -, ⟨-, rfl⟩ | ⟨htopic, -⟩⟩ := hsplit
    · exact (ht.le hb).trans (NNRat.coe_le_coe.mpr hle)
    · exact h t t' htopic ht ht'

end Dates

section Runs

theorem stamped_take (clock : ℕ → Time) (ms : List Message) (k : ℕ) :
    stamped clock (ms.take k) = (stamped clock ms).take k := by
  induction ms generalizing clock k with
  | nil => simp [stamped]
  | cons m ms ih =>
    cases k with
    | zero => rfl
    | succ k => rw [List.take_succ_cons, stamped, stamped, List.take_succ_cons, ih]

theorem stamped_fst {clock : ℕ → Time} {b : Time × Message} (h : b ∈ stamped clock ms) :
    ∃ n, b.1 = clock n := by
  induction ms generalizing clock with
  | nil => cases h
  | cons m ms ih =>
    rcases List.mem_cons.mp h with rfl | h
    · exact ⟨0, rfl⟩
    · obtain ⟨n, hn⟩ := ih h
      exact ⟨n + 1, hn⟩

theorem stamped_sorted (hclock : Monotone clock) (ms : List Message) :
    (stamped clock ms).Pairwise fun b b' ↦ b.1 ≤ b'.1 := by
  induction ms generalizing clock with
  | nil => exact .nil
  | cons m ms ih =>
    have hlater : Monotone fun n ↦ clock (n + 1) := fun _ _ h ↦ hclock (by omega)
    refine List.pairwise_cons.mpr ⟨fun b hb ↦ ?_, ih hlater⟩
    obtain ⟨n, hn⟩ := stamped_fst hb
    exact hn ▸ hclock (Nat.zero_le _)

theorem prefix_lastSeen (hsub : ∀ m ∈ ms, subscribed m) {k : ℕ} {state : State}
    (h : consumeState depth limit clock .empty (ms.take k) = some state) :
    (device state imei).lastSeen =
      ((((stamped clock ms).take k).filterMap (sighting limit imei)).getLast?).getD .none := by
  rw [consumeState_eq_run clock .empty fun m hm ↦ hsub m (List.mem_of_mem_take hm),
    stamped_take] at h
  exact run_lastSeen h imei

theorem consumeState_take {final : State}
    (hrun : consumeState depth limit clock .empty ms = some final) (k : ℕ) :
    ∃ state, consumeState depth limit clock .empty (ms.take k) = some state := by
  rw [← List.take_append_drop k ms, consumeState_append] at hrun
  obtain ⟨state, hstate, -⟩ := Option.bind_eq_some_iff.mp hrun
  exact ⟨state, hstate⟩

theorem forward_iff {final : State} (hrun : consumeState depth limit clock .empty ms = some final)
    (hsub : ∀ m ∈ ms, subscribed m)
    (hset : ∀ v ∈ (stamped clock ms).filterMap (sighting limit imei), v ≠ .none) :
    Forward depth limit clock ms imei ↔
      ∀ k k', k ≤ k' →
        ∀ v ∈ (((stamped clock ms).take k).filterMap (sighting limit imei)).getLast?,
        ∀ v' ∈ (((stamped clock ms).take k').filterMap (sighting limit imei)).getLast?,
          NotAfter v v' := by
  constructor
  · intro h k k' hk v hv v' hv'
    obtain ⟨state, hstate⟩ := consumeState_take hrun k
    obtain ⟨state', hstate'⟩ := consumeState_take hrun k'
    have hseen : (device state imei).lastSeen = v := by
      rw [prefix_lastSeen hsub hstate, hv, Option.getD_some]
    have hseen' : (device state' imei).lastSeen = v' := by
      rw [prefix_lastSeen hsub hstate', hv', Option.getD_some]
    have hmem : v ∈ (stamped clock ms).filterMap (sighting limit imei) :=
      ((List.take_sublist k _).filterMap _).subset (List.mem_of_mem_getLast? hv)
    have hforward := h k k' state state' hk hstate hstate'
    rw [hseen, hseen'] at hforward
    exact hforward (hset v hmem)
  · intro h k k' state state' hk hstate hstate' hne
    rw [prefix_lastSeen hsub hstate] at hne ⊢
    rw [prefix_lastSeen hsub hstate']
    obtain ⟨v, hv⟩ : ∃ v, (((stamped clock ms).take k).filterMap (sighting limit imei)).getLast? =
        some v :=
      Option.ne_none_iff_exists'.mp fun hnone ↦ hne (by rw [hnone, Option.getD_none])
    obtain ⟨v', hv'⟩ :
        ∃ v', (((stamped clock ms).take k').filterMap (sighting limit imei)).getLast? =
          some v' := by
      refine Option.ne_none_iff_exists'.mp fun hnone ↦ ?_
      have hnil := List.getLast?_eq_none_iff.mp hnone
      have hmem := ((List.take_prefix_take_left hk).filterMap (sighting limit imei)).subset
        (List.mem_of_mem_getLast? hv)
      exact absurd hmem (by simp [hnil])
    rw [hv, hv', Option.getD_some, Option.getD_some]
    exact h k k' hk v hv v' hv'

end Runs

/-- `last_seen` goes only forward exactly when no STAT of the device is consumed after a message
that tells of it at a later time: a record of its levels that was consumed after the STAT was
produced, or a STAT that was produced later. -/
theorem lastSeen_forward_iff {final : State}
    (hrun : consumeState depth limit clock .empty ms = some final)
    (hsub : ∀ m ∈ ms, subscribed m) (hclock : Monotone clock)
    (hat : ∀ b ∈ stamped clock ms, Stamped limit b) (imei : Str) :
    Forward depth limit clock ms imei ↔
      (stamped clock ms).Pairwise fun b b' ↦
        ∀ t t', b'.2.topic = .stat → Dates limit imei b t → Dates limit imei b' t' → t ≤ t' := by
  have htimes : ∀ v ∈ (stamped clock ms).filterMap (sighting limit imei),
      ∃ t, v = .float (.finite t) := by
    intro v hv
    obtain ⟨b, hb, hv⟩ := List.mem_filterMap.mp hv
    obtain ⟨t, ht, -⟩ := (mem_sighting_iff (hat b hb)).mp hv
    exact ⟨t, ht⟩
  have hset : ∀ v ∈ (stamped clock ms).filterMap (sighting limit imei), v ≠ .none := by
    intro v hv
    obtain ⟨t, rfl⟩ := htimes v hv
    exact nofun
  have hrefl : ∀ v ∈ (stamped clock ms).filterMap (sighting limit imei), NotAfter v v := by
    intro v hv
    obtain ⟨t, rfl⟩ := htimes v hv
    exact le_refl t
  rw [forward_iff hrun hsub hset, Window.last_forward_iff hrefl, List.pairwise_filterMap]
  have hsorted := stamped_sorted hclock ms
  constructor
  · intro h
    refine (h.and hsorted).imp_of_mem fun {b b'} hb hb' ⟨hpair, hle⟩ ↦ ?_
    exact (sighting_forward_iff (hat b hb) (hat b' hb') hle).mp hpair
  · intro h
    refine (h.and hsorted).imp_of_mem fun {b b'} hb hb' ⟨hpair, hle⟩ ↦ ?_
    exact (sighting_forward_iff (hat b hb) (hat b' hb') hle).mpr hpair

def levelsMessage : Message := (levelRecord (lit "A") 99 (.finite 0) (.finite 0) 1).message

def statMessage : Message :=
  (⟨.stat, lit "A", Ingest.statReport (lit "A") [] (.float (.finite 100))⟩ : Call).message

def afternoon (n : ℕ) : Time := 105 + n

theorem afternoon_monotone : Monotone afternoon := by
  intro m n h
  have hcast : (m : ℚ≥0) ≤ n := Nat.cast_le.mpr h
  exact add_le_add_right hcast 105

theorem statMessage_stamped (n : ℕ) : Stamped 1000 (afternoon n, statMessage) :=
  stat_stamped (lit "A") [] (le_add_right (by norm_num : (100 : Time) ≤ 105))

/-- The STAT is consumed after the levels. -/
theorem lastSeen_goes_back :
    Monotone afternoon ∧ (∀ m ∈ [levelsMessage, statMessage], subscribed m) ∧
      (∀ b ∈ stamped afternoon [levelsMessage, statMessage], Stamped 1000 b) ∧
      ¬ Forward 600 1000 afternoon [levelsMessage, statMessage] (lit "A") := by
  refine ⟨afternoon_monotone, by decide, ?_, ?_⟩
  · intro b hb
    rcases List.mem_cons.mp hb with rfl | hb
    · exact fun htopic ↦ nomatch htopic
    · obtain rfl := List.mem_singleton.mp hb
      exact statMessage_stamped 1
  · intro h
    have hback : ((afternoon 0 : Time) : ℚ) ≤ ((100 : Time) : ℚ) :=
      h 1 2 _ _ (by decide) rfl rfl nofun
    exact absurd (NNRat.coe_le_coe.mp hback) (by norm_num [afternoon])

def lateMessage : Message :=
  (⟨.stat, lit "A", Ingest.statReport (lit "A") [] (.float (.finite 107))⟩ : Call).message

theorem dates_stat {now at' : Time} {t : ℚ} (h : Dates 1000 (lit "A") (now,
    (⟨.stat, lit "A", Ingest.statReport (lit "A") [] (.float (.finite at'))⟩ : Call).message) t) :
    t = at' := by
  obtain ⟨entries, hload, -, ⟨htopic, -⟩ | ⟨-, hat⟩⟩ := h
  · cases htopic
  · obtain rfl := Value.dict.inj (Except.ok.inj hload)
    exact (PyFloat.finite.inj (Value.float.inj (Option.some.inj hat))).symm

theorem dates_levels {now : Time} {t : ℚ} (h : Dates 1000 (lit "A") (now, levelsMessage) t) :
    t = now := by
  obtain ⟨entries, -, -, ⟨-, ht⟩ | ⟨htopic, -⟩⟩ := h
  · exact ht
  · cases htopic

theorem lastSeen_forward_iff_fresh :
    Forward 600 1000 afternoon [statMessage, levelsMessage, lateMessage] (lit "A") := by
  have hstamped : stamped afternoon [statMessage, levelsMessage, lateMessage] =
      [(afternoon 0, statMessage), (afternoon 1, levelsMessage), (afternoon 2, lateMessage)] := rfl
  refine (lastSeen_forward_iff rfl (by decide) afternoon_monotone ?_ (lit "A")).mpr ?_
  · rw [hstamped]
    simp only [List.forall_mem_cons]
    refine ⟨statMessage_stamped 0, nofun, ?_, List.forall_mem_nil _⟩
    exact stat_stamped (lit "A") [] (show (107 : Time) ≤ 105 + (2 : ℕ) by norm_num)
  · rw [hstamped]
    simp only [List.pairwise_cons, List.forall_mem_cons]
    refine ⟨⟨nofun, fun t t' _ ht ht' ↦ ?_, List.forall_mem_nil _⟩,
      ⟨fun t t' _ ht ht' ↦ ?_, List.forall_mem_nil _⟩, List.forall_mem_nil _, .nil⟩
    · have hfirst : t = ((100 : Time) : ℚ) := dates_stat ht
      have hlast : t' = ((107 : Time) : ℚ) := dates_stat ht'
      rw [hfirst, hlast]
      norm_num
    · have hlast : t' = ((107 : Time) : ℚ) := dates_stat ht'
      rw [dates_levels ht, hlast, afternoon]
      norm_num

end Forward

end OpusFleet.Server.Api
