import Mathlib.Tactic.Linarith
import OpusFleet.Library.Runs
import OpusFleet.Library.Window
import OpusFleet.Server.Auth

namespace OpusFleet.Server.Auth

open Python Library Library.Runs Library.Window Library.Rounding

inductive Record
  | accepted (ip : Str) (time : Time)
  | refused (ip : Str) (time : Time)
  | released (ip : Str)

inductive Op
  | allow (ip : Str) (time : Time)
  | release (ip : Str)

section History

variable (ip : Str)

def Record.time? : Record → Option Time
  | accepted _ time | refused _ time => some time
  | released _ => none

def Record.acceptance : Record → Option Time
  | accepted ip' time => if ip' = ip then some time else none
  | _ => none

def Record.isRelease : Record → Bool
  | released ip' => ip' = ip
  | _ => false

def acceptances (history : List Record) : List Time := history.filterMap (Record.acceptance ip)

/-- The accepted connections of an address that are not released yet. -/
def openOf (history : List Record) : ℕ :=
  (acceptances ip history).length - history.countP (Record.isRelease ip)

/-- The accepted connections of an address whose distance from `time`, as
a double, is a minute at most. -/
def recentOf (time : Time) (history : List Record) : ℕ :=
  (acceptances ip history).countP fun s : Time ↦
    binary64.nearest ((time : ℚ) - (s : ℚ)) ≤ 60 ∧ s ≤ time

def Settled (time : Time) (history : List Record) : Prop :=
  ∀ s ∈ history.filterMap Record.time?, s ≤ time

instance (time : Time) (history : List Record) : Decidable (Settled time history) :=
  inferInstanceAs (Decidable (∀ s ∈ history.filterMap Record.time?, s ≤ time))

end History

structure Limited where
  limiter : ConnectionLimiter
  history : List Record

namespace Limited

def init (maxConcurrent maxPerMinute : ℤ) : Limited :=
  ⟨⟨maxConcurrent, maxPerMinute, .empty, .empty, 0⟩, []⟩

def recorded (ip : Str) (time : Time) (ok : Bool) : Record :=
  if ok then .accepted ip time else .refused ip time

/-- One call, in the order that callers keep: positive times that do not decrease, and a release
for each accepted connection at most. -/
def step (s : Limited) : Op → Option Limited
  | .allow ip time =>
    if 0 < time ∧ Settled time s.history then
      some ⟨(s.limiter.allow ip time).1,
        s.history ++ [recorded ip time (s.limiter.allow ip time).2.1]⟩
    else none
  | .release ip =>
    if 0 < openOf ip s.history then some ⟨s.limiter.release ip, s.history ++ [.released ip]⟩
    else none

end Limited

section Calls

variable (l : ConnectionLimiter) (ip : Str) (time : Time)

def ConnectionLimiter.liveOf (l : ConnectionLimiter) (ip : Str) : ℕ := (l.live.get ip).getD 0

def ConnectionLimiter.windowOf (l : ConnectionLimiter) (ip : Str) : List Time :=
  (l.recent.get ip).getD []

theorem allow_cases :
    ((l.liveOf ip : ℤ) < l.maxConcurrent ∧
      (((l.windowOf ip).dropWhile (expired time)).length : ℤ) < l.maxPerMinute ∧
      (l.allow ip time).2.1 = true ∧ (l.allow ip time).1 = { l with
        live := (l.live.set ip (l.liveOf ip)).set ip (l.liveOf ip + 1)
        recent := (l.recent.set ip ((l.windowOf ip).dropWhile (expired time))).set ip
          ((l.windowOf ip).dropWhile (expired time) ++ [time]) }) ∨
    (¬ ((l.liveOf ip : ℤ) < l.maxConcurrent ∧
        (((l.windowOf ip).dropWhile (expired time)).length : ℤ) < l.maxPerMinute) ∧
      (l.allow ip time).2.1 = false ∧ (l.allow ip time).1 = { l with
        live := l.live.set ip (l.liveOf ip)
        recent := l.recent.set ip ((l.windowOf ip).dropWhile (expired time))
        rejected := l.rejected + 1 }) := by
  have hwindow : (l.recent.get ip).getD [] = l.windowOf ip := rfl
  have hlive : (l.live.get ip).getD 0 = l.liveOf ip := rfl
  simp only [ConnectionLimiter.allow, hwindow, hlive]
  by_cases h₁ : l.maxConcurrent ≤ (l.liveOf ip : ℤ)
  · refine .inr ⟨fun h ↦ absurd h.1 (not_lt.mpr h₁), ?_, ?_⟩ <;> rw [if_pos h₁]
  by_cases h₂ : l.maxPerMinute ≤ (((l.windowOf ip).dropWhile (expired time)).length : ℤ)
  · refine .inr ⟨fun h ↦ absurd h.2 (not_lt.mpr h₂), ?_, ?_⟩ <;> rw [if_neg h₁, if_pos h₂]
  · refine .inl ⟨not_le.mp h₁, not_le.mp h₂, ?_, ?_⟩ <;> rw [if_neg h₁, if_neg h₂]

theorem allow_iff : (l.allow ip time).2.1 = true ↔ (l.liveOf ip : ℤ) < l.maxConcurrent ∧
    (((l.windowOf ip).dropWhile (expired time)).length : ℤ) < l.maxPerMinute := by
  obtain ⟨h₁, h₂, hok, -⟩ | ⟨hfull, hok, -⟩ := allow_cases l ip time
  · simp [hok, h₁, h₂]
  · simpa [hok] using hfull

theorem allow_limits : (l.allow ip time).1.maxConcurrent = l.maxConcurrent ∧
    (l.allow ip time).1.maxPerMinute = l.maxPerMinute := by
  obtain ⟨-, -, -, h⟩ | ⟨-, -, h⟩ := allow_cases l ip time <;> rw [h] <;> exact ⟨rfl, rfl⟩

theorem allow_live (ip' : Str) : (l.allow ip time).1.liveOf ip' =
    l.liveOf ip' + if ip' = ip ∧ (l.allow ip time).2.1 = true then 1 else 0 := by
  obtain ⟨-, -, hok, h⟩ | ⟨-, hok, h⟩ := allow_cases l ip time
  all_goals
    rw [h, hok]
    by_cases hip : ip' = ip
    · simp [ConnectionLimiter.liveOf, hip]
    · simp [ConnectionLimiter.liveOf, hip]

theorem allow_window (ip' : Str) : (l.allow ip time).1.windowOf ip' =
    if ip' = ip then (l.windowOf ip).dropWhile (expired time) ++
      (if (l.allow ip time).2.1 = true then [time] else []) else l.windowOf ip' := by
  obtain ⟨-, -, hok, h⟩ | ⟨-, hok, h⟩ := allow_cases l ip time
  all_goals
    rw [h, hok]
    by_cases hip : ip' = ip
    · simp [ConnectionLimiter.windowOf, hip]
    · simp [ConnectionLimiter.windowOf, hip]

theorem release_limits : (l.release ip).maxConcurrent = l.maxConcurrent ∧
    (l.release ip).maxPerMinute = l.maxPerMinute ∧ (l.release ip).recent = l.recent := by
  rw [ConnectionLimiter.release]
  split <;> exact ⟨rfl, rfl, rfl⟩

theorem release_live (ip' : Str) :
    (l.release ip).liveOf ip' = l.liveOf ip' - if ip' = ip then 1 else 0 := by
  rw [ConnectionLimiter.release]
  by_cases hip : ip' = ip
  · subst hip
    split <;> simp [ConnectionLimiter.liveOf, *]
  · split <;> simp [ConnectionLimiter.liveOf, hip]

end Calls

section Tracks

variable {ip : Str} {history : List Record}

theorem acceptances_concat (r : Record) :
    acceptances ip (history ++ [r]) = acceptances ip history ++ (r.acceptance ip).toList := by
  simp only [acceptances, List.filterMap_append, List.filterMap_cons, List.filterMap_nil]
  cases r.acceptance ip <;> rfl

theorem acceptance_recorded (ip' : Str) (time : Time) (ok : Bool) :
    (Limited.recorded ip' time ok).acceptance ip = if ip = ip' ∧ ok = true then some time
      else none := by
  cases ok <;> simp [Limited.recorded, Record.acceptance, eq_comm]

theorem acceptances_recorded (ip' : Str) (time : Time) (ok : Bool) :
    acceptances ip (history ++ [Limited.recorded ip' time ok]) =
      acceptances ip history ++ if ip = ip' ∧ ok = true then [time] else [] := by
  rw [acceptances_concat, acceptance_recorded]
  split <;> rfl

theorem releases_recorded (ip' : Str) (time : Time) (ok : Bool) :
    (history ++ [Limited.recorded ip' time ok]).countP (Record.isRelease ip) =
      history.countP (Record.isRelease ip) := by
  rw [List.countP_append]
  cases ok <;> rfl

theorem acceptances_released (ip' : Str) :
    acceptances ip (history ++ [.released ip']) = acceptances ip history := by
  rw [acceptances_concat]
  simp [Record.acceptance]

theorem releases_released (ip' : Str) :
    (history ++ [Record.released ip']).countP (Record.isRelease ip) =
    history.countP (Record.isRelease ip) + if ip = ip' then 1 else 0 := by
  rw [List.countP_append, List.countP_singleton]
  by_cases hip : ip = ip'
  · simp [Record.isRelease, hip]
  · simp [Record.isRelease, hip, Ne.symm hip]

theorem acceptance_time {r : Record} {t : Time} (h : r.acceptance ip = some t) :
    r.time? = some t := by
  cases r with
  | accepted ip' time =>
    rw [Record.acceptance] at h
    split at h
    · exact h
    · cases h
  | refused | released => cases h

theorem settled_acceptances {time : Time} (h : Settled time history) {s : Time}
    (hs : s ∈ acceptances ip history) : s ≤ time := by
  obtain ⟨r, hr, ha⟩ := List.mem_filterMap.mp hs
  exact h s (List.mem_filterMap.mpr ⟨r, hr, acceptance_time ha⟩)

theorem settled_concat {time now : Time} {r : Record} (hr : r.time? = some time)
    (h : Settled now (history ++ [r])) : Settled now history ∧ time ≤ now := by
  simp only [Settled, List.filterMap_append, List.mem_append] at h
  refine ⟨fun s hs ↦ h s (.inl hs), h time (.inr ?_)⟩
  simp [hr]

theorem sixty_double : binary64.Holds 60 ∧ (60 : ℚ) < 2 ^ 1024 :=
  ⟨by simpa using PyFloat.holds_natCast (m := 60) (by decide),
    by simpa using PyFloat.natCast_lt (m := 60) (by decide)⟩

theorem expired_mono {now t now' t' : Time} (h : (now : ℚ) - t ≤ now' - t')
    (he : expired now t = true) : expired now' t' = true :=
  PyFloat.lt_rounded_mono (by norm_num) sixty_double.2 h he

theorem expired_later (now later t : Time) (h : now ≤ later) (he : expired now t = true) :
    expired later t = true := by
  have hq : (now : ℚ) ≤ later := by exact_mod_cast h
  exact expired_mono (by linarith) he

theorem expired_older (now s t : Time) (h : s ≤ t) (he : expired now t = true) :
    expired now s = true := by
  have hq : (s : ℚ) ≤ t := by exact_mod_cast h
  exact expired_mono (by linarith) he

theorem expired_iff {now t : Time} (h : t ≤ now) :
    expired now t = true ↔ 60 < binary64.nearest ((now : ℚ) - t) := by
  have hq : (0 : ℚ) ≤ now - t := sub_nonneg.mpr (by exact_mod_cast h)
  exact (PyFloat.lt_rounded_iff (by norm_num) sixty_double.2).trans (and_iff_right hq)

/-- A difference of a minute at most is not rounded past it. -/
theorem nearest_le_sixty {x : ℚ} (hx : 0 ≤ x) (h : x ≤ 60) : binary64.nearest x ≤ 60 := by
  have hmono := Format.nearest_mono (f := binary64) hx h
  rwa [Format.nearest_self sixty_double.1 (by norm_num)] at hmono

/-- The limiter agrees with its history. -/
structure Tracks (maxConcurrent maxPerMinute : ℤ) (s : Limited) : Prop where
  concurrent : s.limiter.maxConcurrent = maxConcurrent
  perMinute : s.limiter.maxPerMinute = maxPerMinute
  live : ∀ ip, s.limiter.liveOf ip = openOf ip s.history
  freed : ∀ ip, s.history.countP (Record.isRelease ip) ≤ (acceptances ip s.history).length
  window : ∀ ip now, Settled now s.history →
    Keeps expired (s.limiter.windowOf ip) (acceptances ip s.history) now
  sorted : ∀ ip, (acceptances ip s.history).Pairwise (· ≤ ·)

variable {maxConcurrent maxPerMinute : ℤ} {s s' : Limited}

theorem tracks_init : Tracks maxConcurrent maxPerMinute (.init maxConcurrent maxPerMinute) where
  concurrent := rfl
  perMinute := rfl
  live _ := rfl
  freed _ := Nat.zero_le _
  window _ _ _ _ _ := rfl
  sorted _ := List.Pairwise.nil

theorem Tracks.allow_iff (h : Tracks maxConcurrent maxPerMinute s) (ip : Str) {time : Time}
    (hsettled : Settled time s.history) : (s.limiter.allow ip time).2.1 = true ↔
      (openOf ip s.history : ℤ) < maxConcurrent ∧
      (recentOf ip time s.history : ℤ) < maxPerMinute := by
  have hrecent : ((s.limiter.windowOf ip).dropWhile (expired time)).length =
      recentOf ip time s.history := by
    rw [(h.window ip time hsettled).length expired_older le_rfl (h.sorted ip), recentOf]
    apply List.countP_congr
    intro t ht
    have hle := settled_acceptances hsettled ht
    simp only [decide_eq_true_eq, hle, and_true, ← not_lt, ← expired_iff hle, Bool.not_eq_true',
      Bool.not_eq_true]
  rw [Auth.allow_iff, hrecent, h.live, h.concurrent, h.perMinute]

theorem tracks_allow (h : Tracks maxConcurrent maxPerMinute s) (ip : Str) {time : Time}
    (hsettled : Settled time s.history) : Tracks maxConcurrent maxPerMinute
      ⟨(s.limiter.allow ip time).1,
        s.history ++ [Limited.recorded ip time (s.limiter.allow ip time).2.1]⟩ := by
  obtain ⟨hconcurrent, hperMinute⟩ := allow_limits s.limiter ip time
  have hlive := allow_live s.limiter ip time
  have hwindow := allow_window s.limiter ip time
  generalize (s.limiter.allow ip time).2.1 = ok at hlive hwindow ⊢
  refine ⟨hconcurrent.trans h.concurrent, hperMinute.trans h.perMinute, ?_, ?_, ?_, ?_⟩
  · intro ip'
    have hfreed := h.freed ip'
    have hopen := h.live ip'
    simp only [openOf, acceptances_recorded, releases_recorded, List.length_append] at hopen ⊢
    rw [hlive]
    split <;> simp only [List.length_cons, List.length_nil] <;> omega
  · intro ip'
    rw [acceptances_recorded, releases_recorded, List.length_append]
    exact (h.freed ip').trans (Nat.le_add_right _ _)
  · intro ip' now hnow
    have htime : (Limited.recorded ip time ok).time? = some time := by cases ok <;> rfl
    obtain ⟨hbefore, hle⟩ := settled_concat htime hnow
    simp only [acceptances_recorded, hwindow]
    by_cases hip : ip' = ip
    · subst hip
      have hkept := (h.window ip' time hsettled).trim expired_later le_rfl
      cases ok with
      | true => simpa using (hkept.push time).mono hle
      | false => simpa using hkept.mono hle
    · simpa [hip] using h.window ip' now hbefore
  · intro ip'
    rw [acceptances_recorded]
    split
    · rw [List.pairwise_append]
      refine ⟨h.sorted ip', by simp, ?_⟩
      intro t ht u hu
      rw [List.mem_singleton.mp hu]
      exact settled_acceptances hsettled ht
    · rw [List.append_nil]
      exact h.sorted ip'

theorem tracks_release (h : Tracks maxConcurrent maxPerMinute s) (ip : Str)
    (hopen : 0 < openOf ip s.history) : Tracks maxConcurrent maxPerMinute
      ⟨s.limiter.release ip, s.history ++ [.released ip]⟩ := by
  obtain ⟨hconcurrent, hperMinute, hrecent⟩ := release_limits s.limiter ip
  refine ⟨hconcurrent.trans h.concurrent, hperMinute.trans h.perMinute, ?_, ?_, ?_, ?_⟩
  · intro ip'
    have hlive := h.live ip'
    simp only [openOf, acceptances_released, releases_released] at hlive ⊢
    rw [release_live, hlive]
    split <;> omega
  · intro ip'
    have hfreed := h.freed ip'
    rw [acceptances_released, releases_released]
    split
    · next hip =>
      rw [openOf, ← hip] at hopen
      omega
    · exact hfreed
  · intro ip' now hnow
    have hbefore : Settled now s.history := by simpa [Settled, Record.time?] using hnow
    rw [acceptances_released, ConnectionLimiter.windowOf, hrecent]
    exact h.window ip' now hbefore
  · intro ip'
    rw [acceptances_released]
    exact h.sorted ip'

theorem Limited.step_cases {op : Op} (hs : s.step op = some s') :
    (∃ ip time, op = .allow ip time ∧ 0 < time ∧ Settled time s.history ∧
      s' = ⟨(s.limiter.allow ip time).1,
        s.history ++ [Limited.recorded ip time (s.limiter.allow ip time).2.1]⟩) ∨
    ∃ ip, op = .release ip ∧ 0 < openOf ip s.history ∧
      s' = ⟨s.limiter.release ip, s.history ++ [.released ip]⟩ := by
  cases op with
  | allow ip time =>
    rw [Limited.step] at hs
    split at hs
    · next h => exact .inl ⟨ip, time, rfl, h.1, h.2, (Option.some.inj hs).symm⟩
    · cases hs
  | release ip =>
    rw [Limited.step] at hs
    split at hs
    · next h => exact .inr ⟨ip, rfl, h, (Option.some.inj hs).symm⟩
    · cases hs

end Tracks

section Bounds

variable {maxConcurrent maxPerMinute : ℤ} {s s' : Limited}

/-- The accepted connections of an address in the minute from `start` on. -/
def minuteFrom (ip : Str) (start : ℚ) (history : List Record) : ℕ :=
  (acceptances ip history).countP fun t : Time ↦ start ≤ (t : ℚ) ∧ (t : ℚ) ≤ start + 60

structure Bounded (maxConcurrent maxPerMinute : ℤ) (s : Limited) : Prop where
  opened : ∀ ip, (openOf ip s.history : ℤ) ≤ max maxConcurrent 0
  minute : ∀ ip start, (minuteFrom ip start s.history : ℤ) ≤ max maxPerMinute 0

theorem minuteFrom_le_recentOf {ip : Str} {history : List Record} {time : Time} {start : ℚ}
    (hsettled : Settled time history) (htime : (time : ℚ) ≤ start + 60) :
    minuteFrom ip start history ≤ recentOf ip time history := by
  rw [minuteFrom, recentOf, List.countP_eq_length_filter, List.countP_eq_length_filter]
  apply List.Sublist.length_le
  have hsub : (acceptances ip history).filter (fun t : Time ↦ start ≤ (t : ℚ) ∧
    (t : ℚ) ≤ start + 60) =
      ((acceptances ip history).filter fun t : Time ↦
        binary64.nearest ((time : ℚ) - (t : ℚ)) ≤ 60 ∧ t ≤ time).filter
          fun t : Time ↦ start ≤ (t : ℚ) ∧ (t : ℚ) ≤ start + 60 := by
    rw [List.filter_filter]
    apply List.filter_congr
    intro t ht
    have hle := settled_acceptances hsettled ht
    by_cases hstart : start ≤ (t : ℚ)
    · have hdiff : (0 : ℚ) ≤ time - t := sub_nonneg.mpr (by exact_mod_cast hle)
      have hrecent : binary64.nearest ((time : ℚ) - t) ≤ 60 := nearest_le_sixty hdiff (by linarith)
      simp [hstart, hrecent, hle]
    · simp [hstart]
  rw [hsub]
  exact List.filter_sublist

theorem step_bounded {op : Op} (htracks : Tracks maxConcurrent maxPerMinute s)
    (h : Bounded maxConcurrent maxPerMinute s) (hs : s.step op = some s') :
    Tracks maxConcurrent maxPerMinute s' ∧ Bounded maxConcurrent maxPerMinute s' := by
  obtain ⟨ip, time, rfl, -, hsettled, rfl⟩ | ⟨ip, rfl, hopen, rfl⟩ := Limited.step_cases hs
  · refine ⟨tracks_allow htracks ip hsettled, ?_⟩
    have hallow := htracks.allow_iff ip hsettled
    generalize (s.limiter.allow ip time).2.1 = ok at hallow ⊢
    refine ⟨?_, ?_⟩
    · intro ip'
      have hbound := h.opened ip'
      simp only [openOf, acceptances_recorded, releases_recorded] at hbound ⊢
      split
      · next hip =>
        have hroom := (hallow.mp hip.2).1
        rw [openOf, ← hip.1] at hroom
        simp only [List.length_append, List.length_cons, List.length_nil]
        omega
      · simpa using hbound
    · intro ip' start
      have hbound := h.minute ip' start
      simp only [minuteFrom, acceptances_recorded, List.countP_append] at hbound ⊢
      split
      · next hip =>
        rw [List.countP_singleton]
        split
        · next hin =>
          -- all that is accepted in this minute so far is recent at `time`, and there was room
          simp only [decide_eq_true_eq] at hin
          have hroom := (hallow.mp hip.2).2
          rw [← hip.1] at hroom
          have hle : minuteFrom ip' start s.history ≤ recentOf ip' time s.history :=
            minuteFrom_le_recentOf hsettled hin.2
          rw [minuteFrom] at hle
          omega
        · simpa using hbound
      · simpa using hbound
  · refine ⟨tracks_release htracks ip hopen, ?_⟩
    refine ⟨?_, ?_⟩
    · intro ip'
      have hbound := h.opened ip'
      simp only [openOf, acceptances_released, releases_released] at hbound ⊢
      omega
    · intro ip' start
      rw [minuteFrom, acceptances_released]
      exact h.minute ip' start

theorem run_bounded {ops : List Op}
    (hrun : run Limited.step (.init maxConcurrent maxPerMinute) ops = some s) :
    Tracks maxConcurrent maxPerMinute s ∧ Bounded maxConcurrent maxPerMinute s := by
  refine run_induction (P := fun _ _ _ ↦ True)
    (I := fun _ s ↦ Tracks maxConcurrent maxPerMinute s ∧
      Bounded maxConcurrent maxPerMinute s) ?_ ?_
    (throughout_true ops) hrun
  · refine ⟨tracks_init, ?_, ?_⟩
    · exact fun _ ↦ le_max_right _ _
    · exact fun _ _ ↦ le_max_right _ _
  · intro _ m op m' _ h _ hs
    exact step_bounded h.1 h.2 hs

end Bounds

end OpusFleet.Server.Auth
