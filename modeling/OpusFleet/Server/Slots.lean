import OpusFleet.Server.Connections
import OpusFleet.Server.Limiter

namespace OpusFleet.Server

open Python Library Protocol Auth Library.Runs

section Steady

variable (env : Env) (peer : Peer)

/-- A stretch of code that leaves the limiter alone. -/
structure Steady (ing ing' : Ingest) : Prop where
  limiter : ing'.limiter = ing.limiter
  ticks : ing.ticks ≤ ing'.ticks

theorem Steady.refl (ing : Ingest) : Steady ing ing := ⟨rfl, le_rfl⟩

theorem Steady.trans {a b c : Ingest} (h : Steady a b) (h' : Steady b c) : Steady a c :=
  ⟨h'.limiter.trans h.limiter, h.ticks.trans h'.ticks⟩

theorem produce_steady (ing : Ingest) (topic : Topic) (key : Str) (value : Payload) :
    Steady ing (ing.produce env topic key value) := by
  unfold Ingest.produce
  cases env.broker ing.calls.length <;> exact ⟨rfl, le_rfl⟩

theorem hello_steady (ing : Ingest) (imei : Str) : Steady ing (ing.hello env peer imei) := by
  refine Steady.trans ?_ (produce_steady env _ _ _ _)
  exact ⟨rfl, by simp only [Ingest.tick]; omega⟩

theorem stat_steady (ing : Ingest) (imei : Str) (entries : List (Str × Value)) :
    Steady ing (ing.stat env imei entries) := by
  refine Steady.trans ?_ (produce_steady env _ _ _ _)
  exact ⟨rfl, Nat.le_succ _⟩

theorem audio_steady (ing : Ingest) (imei : Str) (payload : Bytes) :
    Steady ing (ing.audio env imei payload) := by
  refine Steady.trans ?_ (produce_steady env _ _ _ _)
  exact ⟨rfl, le_rfl⟩

theorem dispatch_steady (authed : Bool) (ing : Ingest) (imei : Str) (payload : Bytes) :
    Steady ing (ing.dispatch env peer authed imei payload).1 := by
  rw [Ingest.dispatch]
  split
  iterate 3 exact Steady.refl ing
  · split
    · exact Steady.refl ing
    · exact hello_steady env peer ing _
  · exact stat_steady env ing imei _
  · exact ⟨rfl, Nat.le_succ _⟩
  · exact audio_steady env ing imei payload

theorem frameLoop_steady (authed : Bool) (frames : List Bytes) (ing : Ingest) (imei : Str) :
    Steady ing (ing.frameLoop env peer authed imei frames).1 := by
  induction frames generalizing ing imei with
  | nil => exact Steady.refl ing
  | cons f frames ih =>
    have hd := dispatch_steady env peer authed { ing with dispatched :=
      ing.dispatched ++ [f] } imei f
    rw [Ingest.frameLoop]
    split
    · next he =>
      rw [he] at hd
      exact Steady.trans ⟨hd.limiter, hd.ticks⟩ (ih _ _)
    · next he =>
      rw [he] at hd
      exact ⟨hd.limiter, hd.ticks⟩

theorem mainLoop_steady (authed : Bool) (ending : Ending) (chunks : List Bytes) (ing : Ingest)
    (imei : Str) (buf : Bytes) :
    Steady ing (ing.mainLoop env peer authed ending imei buf chunks).1 := by
  induction chunks generalizing ing imei buf with
  | nil => exact Steady.refl ing
  | cons chunk chunks ih =>
    have hl := frameLoop_steady env peer authed (iterFrames (buf ++ chunk)).1 ing imei
    rw [Ingest.mainLoop]
    split
    · exact Steady.refl ing
    · split
      · next he =>
        rw [he] at hl
        exact hl.trans (ih _ _ _)
      · next he =>
        rw [he] at hl
        exact hl

theorem handshake_steady (registry : Registry) (link : Link) (ing : Ingest) :
    Steady ing (ing.handshake env registry link).1 := by
  unfold Ingest.handshake
  split
  · exact Steady.refl ing
  split
  · exact Steady.refl ing
  split
  · exact Steady.refl ing
  split
  · exact Steady.refl ing
  split
  · split <;> exact Steady.refl ing
  · exact ⟨rfl, le_rfl⟩

theorem cleanup_releases (ing : Ingest) (imei : Str) :
    (ing.cleanup env peer imei).limiter = ing.limiter.release peer.ip ∧
      ing.ticks ≤ (ing.cleanup env peer imei).ticks := by
  rw [Ingest.cleanup]
  have h := produce_steady env ({ ing with
    limiter := ing.limiter.release peer.ip, online :=
      ing.online.pop imei } : Ingest).tick .events imei
    (Ingest.disconnectEvent imei (({ ing with
      limiter := ing.limiter.release peer.ip, online := ing.online.pop imei } : Ingest).stamp env))
  exact ⟨h.limiter, (Nat.le_succ _).trans h.ticks⟩

/-- `handle` releases the slot of an accepted connection once, whatever its end,
and nothing for a refused one. -/
theorem handle_limiter (registry : Registry) (link : Link) (ing : Ingest) :
    (ing.handle env registry link).1.limiter =
      if (ing.allow env link.peer).2 = true then
        (ing.allow env link.peer).1.limiter.release link.peer.ip
      else (ing.allow env link.peer).1.limiter := by
  rcases hallow : ing.allow env link.peer with ⟨ing₀, ok⟩
  cases ok with
  | false => simp [Ingest.handle, hallow]
  | true =>
    have hshake := handshake_steady env registry link ing₀
    simp only [Ingest.handle, hallow, not_true_eq_false, if_false, if_true]
    rcases hh : ing₀.handshake env registry link with ⟨ing₁, sent, e | ⟨accepted, chunks⟩⟩
    · rw [hh] at hshake
      split
      · next h => cases h
      · next h =>
        obtain ⟨rfl, rfl, he⟩ : ing₁ = _ ∧ sent = _ ∧ _ := by simpa using h
        split <;> rw [(cleanup_releases env link.peer _ _).1] <;> rw [← hshake.limiter]
    · rw [hh] at hshake
      have hloop :=
        mainLoop_steady env link.peer accepted.authed link.ending chunks ing₁ accepted.imei
        accepted.leftover
      simp only [Ingest.session]
      rw [(cleanup_releases env link.peer _ _).1, hloop.limiter, hshake.limiter]

end Steady

section Wakes

variable (env : Env) (peer : Peer)

/-- A connection that is done has released its slot, and one that is not has kept it. -/
structure Frees (peer : Peer) (ing : Ingest) (p : Ingest × Phase) : Prop where
  limiter : p.1.limiter = if p.2 = .closed then ing.limiter.release peer.ip else ing.limiter
  ticks : ing.ticks ≤ p.1.ticks

theorem Steady.frees {ing ing' : Ingest} {phase : Phase} (h : Steady ing ing')
    (hphase : phase ≠ .closed) :
    Frees peer ing (ing', phase) := ⟨by rw [if_neg hphase, h.limiter], h.ticks⟩

theorem Steady.closes {ing ing' : Ingest} (h : Steady ing ing') (imei : Str) :
    Frees peer ing (ing'.cleanup env peer imei, .closed) := by
  obtain ⟨hlimiter, hticks⟩ := cleanup_releases env peer ing' imei
  exact ⟨by rw [if_pos rfl, hlimiter, h.limiter], h.ticks.trans hticks⟩

theorem refuse_frees (ing : Ingest) (e : Exc) : Frees peer ing (ing.refuse env peer e) := by
  rw [Ingest.refuse]
  split
  · exact Steady.frees peer ⟨rfl, le_rfl⟩ (by simp)
  · exact (Steady.refl ing).closes env peer _

theorem answer_frees (registry : Registry) (conn : Connection) (ing : Ingest)
    (payload leftover : Bytes) :
    Frees conn.peer ing (ing.answer env registry conn payload leftover) := by
  rw [Ingest.answer]
  split
  · exact refuse_frees env conn.peer ing _
  · split
    · split
      · exact refuse_frees env conn.peer ing _
      · exact (Steady.refl ing).frees conn.peer (by simp)
    · exact Steady.frees conn.peer ⟨rfl, le_rfl⟩ (by simp)

theorem serve_frees (authed : Bool) (ing : Ingest) (imei : Str) (buf : Bytes) :
    Frees peer ing (ing.serve env peer authed imei buf) := by
  have hl := frameLoop_steady env peer authed (iterFrames buf).1 ing imei
  rw [Ingest.serve]
  split
  · next he =>
    rw [he] at hl
    exact hl.frees peer (by simp)
  · next he =>
    rw [he] at hl
    exact hl.closes env peer _

theorem resume_frees {ing : Ingest} {conn : Connection} {input : Input} {p : Ingest × Phase}
    (h : ing.resume env conn input = some p) : Frees conn.peer ing p := by
  have hrefl := Steady.refl ing
  cases input with
  | drained ok =>
    simp only [Ingest.resume] at h
    split at h
    · split at h
      · exact Option.some.inj h ▸ hrefl.frees conn.peer (by simp)
      · exact Option.some.inj h ▸ hrefl.closes env conn.peer _
    · split at h
      · exact Option.some.inj h ▸ hrefl.frees conn.peer (by simp)
      · exact Option.some.inj h ▸ hrefl.closes env conn.peer _
    · exact Option.some.inj h ▸ hrefl.closes env conn.peer _
    · cases h
  | recv chunk registry =>
    simp only [Ingest.resume] at h
    split at h
    · cases h
    · split at h
      · split at h
        · exact Option.some.inj h ▸ hrefl.frees conn.peer (by simp)
        · exact Option.some.inj h ▸ refuse_frees env conn.peer ing _
        · exact Option.some.inj h ▸ answer_frees env registry conn ing _ _
      · exact Option.some.inj h ▸ serve_frees env conn.peer _ ing _ _
      · cases h
  | ended ending =>
    simp only [Ingest.resume] at h
    split at h
    · exact Option.some.inj h ▸ refuse_frees env conn.peer ing _
    · exact Option.some.inj h ▸ hrefl.closes env conn.peer _
    · cases h

end Wakes

section Count

theorem countP_point {l : List ℕ} {c : ℕ} {p q : ℕ → Bool} (hnodup : l.Nodup) (hc : c ∈ l)
    (h : ∀ x ≠ c, p x = q x) :
    l.countP p + (if q c then 1 else 0) = l.countP q + if p c then 1 else 0 := by
  induction l with
  | nil => cases hc
  | cons x l ih =>
    obtain ⟨hx, hl⟩ := List.nodup_cons.mp hnodup
    rw [List.countP_cons, List.countP_cons]
    rcases List.mem_cons.mp hc with rfl | hc
    · have hrest : l.countP p = l.countP q :=
        List.countP_congr fun y hy ↦ by rw [h y (ne_of_mem_of_not_mem hy hx)]
      omega
    · rw [h x (ne_of_mem_of_not_mem hc hx).symm]
      have htail := ih hl hc
      omega

end Count

section Slots

variable {env : Env} {maxConcurrent maxPerMinute : ℤ} {es : List Event}
    {s s' : System} {l : Limited}

def arrivals (es : List Event) : List ℕ := es.filterMap fun e ↦
  match e with
  | .accept c _ _ => some c
  | .wake _ _ => none

def System.holds (s : System) (ip : Str) (c : ℕ) : Bool :=
  (s.conns c).any fun conn ↦ conn.peer.ip = ip ∧ conn.phase ≠ .closed

/-- The limiter of the process is one that has seen its calls in a proper order, and an address
has as many connections unreleased as open. -/
structure Slotted (env : Env) (es : List Event) (s : System) (l : Limited) : Prop where
  limiter : l.limiter = s.ing.limiter
  opened : ∀ ip, openOf ip l.history = (arrivals es).countP (s.holds ip)
  settled : Settled (env.clock s.ing.ticks) l.history
  nodup : (arrivals es).Nodup
  known : ∀ c, c ∈ arrivals es ↔ s.conns c ≠ none

theorem settled_later {time later : Time} {history : List Record} (h : Settled time history)
    (hle : time ≤ later) : Settled later history := fun t ht ↦ (h t ht).trans hle

theorem settled_push {time later : Time} {history : List Record} {r : Record}
    (h : Settled time history) (hle : time ≤ later) (hr : ∀ t, r.time? = some t → t ≤ later) :
    Settled later (history ++ [r]) := by
  intro t ht
  rw [List.filterMap_append, List.mem_append] at ht
  rcases ht with ht | ht
  · exact (h t ht).trans hle
  · cases hrt : r.time? with
    | none => simp [hrt] at ht
    | some u =>
      obtain rfl : t = u := by simpa [hrt] using ht
      exact hr t hrt

theorem holds_settle {c : ℕ} {conn : Connection} {ing' : Ingest} (ip : Str) (c' : ℕ) :
    (s.settle c conn ing').holds ip c' =
      if c' = c then decide (conn.peer.ip = ip ∧ conn.phase ≠ .closed) else s.holds ip c' := by
  rw [System.holds, settle_conns]
  split <;> rfl

theorem slotted_accept (hpos : ∀ n, 0 < env.clock n) (hmono : Monotone env.clock)
    (h : Slotted env es s l) (htracks : Tracks maxConcurrent maxPerMinute l) {c : ℕ} {peer : Peer}
    {nonce : Nonce} (hs : System.step env s (.accept c peer nonce) = some s') :
    ∃ l', l.step (.allow peer.ip (env.clock s.ing.ticks)) = some l' ∧
      Slotted env (es ++ [.accept c peer nonce]) s' l' := by
  cases hc : s.conns c with
  | some conn => simp [System.step, hc] at hs
  | none =>
    simp only [System.step, hc, Option.some.injEq] at hs
    subst hs
    have harrivals : arrivals (es ++ [.accept c peer nonce]) = arrivals es ++ [c] := by
      simp [arrivals]
    have hfresh : c ∉ arrivals es := fun hmem ↦ (h.known c).mp hmem hc
    refine ⟨_, if_pos ⟨hpos _, h.settled⟩, ?_, ?_, ?_, ?_, ?_⟩
    · rw [h.limiter]
      rfl
    · intro ip
      rw [← (tracks_allow htracks peer.ip h.settled).live, allow_live, htracks.live,
        h.opened, harrivals, List.countP_append, h.limiter]
      have hold : (arrivals es).countP (System.holds (s.settle c ⟨peer, nonce,
          if (s.ing.allow env peer).2 = true then env.mode.opening else .closed⟩
            (s.ing.allow env peer).1) ip) = (arrivals es).countP (s.holds ip) := by
        apply List.countP_congr
        intro x hx
        rw [holds_settle, if_neg (ne_of_mem_of_not_mem hx hfresh)]
      have hopening : env.mode.opening ≠ .closed := by
        cases env.mode <;> simp [Mode.opening]
      rw [hold, List.countP_singleton, holds_settle, if_pos rfl]
      have hok : (s.ing.allow env peer).2 =
          (s.ing.limiter.allow peer.ip (env.clock s.ing.ticks)).2.1 := rfl
      rw [← hok]
      cases (s.ing.allow env peer).2 <;> simp [hopening, eq_comm]
    · apply settled_push h.settled (hmono (Nat.le_succ _))
      intro t ht
      have htime : t = env.clock s.ing.ticks := by
        revert ht
        cases (l.limiter.allow peer.ip (env.clock s.ing.ticks)).2.1 <;>
          simp [Limited.recorded, Record.time?, eq_comm]
      exact htime ▸ hmono (Nat.le_succ _)
    · rw [harrivals, List.nodup_append]
      refine ⟨h.nodup, by simp, ?_⟩
      intro a ha b hb
      rw [List.mem_singleton.mp hb]
      exact ne_of_mem_of_not_mem ha hfresh
    · intro c'
      rw [harrivals, List.mem_append, h.known, settle_conns]
      by_cases hcc : c' = c <;> simp [hcc]

section Settle

variable {c : ℕ} {conn : Connection} (h : Slotted env es s l) (hconn : s.conns c = some conn)
  (phase : Phase) (ing' : Ingest)

include h hconn

theorem settle_holders (hopen : conn.phase ≠ .closed) (ip : Str) :
    (arrivals es).countP (s.holds ip) =
      (arrivals es).countP ((s.settle c { conn with phase := phase } ing').holds ip) +
        if conn.peer.ip = ip ∧ phase = .closed then 1 else 0 := by
  have hmem : c ∈ arrivals es := (h.known c).mpr (by simp [hconn])
  have hcount := countP_point h.nodup hmem
    (p := s.holds ip) (q := (s.settle c { conn with phase := phase } ing').holds ip)
    (fun x hx ↦ by rw [holds_settle, if_neg hx])
  have hbefore : s.holds ip c = decide (conn.peer.ip = ip) := by simp [System.holds, hconn, hopen]
  rw [hbefore, holds_settle, if_pos rfl] at hcount
  by_cases hip : conn.peer.ip = ip
  · by_cases hclosed : phase = .closed
    · simpa [hip, hclosed] using hcount
    · simpa [hip, hclosed] using hcount
  · simpa [hip] using hcount

theorem settle_known (c' : ℕ) : c' ∈ arrivals es ↔
    (s.settle c { conn with phase := phase } ing').conns c' ≠ none := by
  rw [settle_conns]
  split
  · next hcc =>
    subst hcc
    simp [h.known c', hconn]
  · exact h.known c'

end Settle

theorem slotted_wake (hmono : Monotone env.clock) (h : Slotted env es s l)
    (htracks : Tracks maxConcurrent maxPerMinute l) {c : ℕ} {input : Input}
    (hs : System.step env s (.wake c input) = some s') :
    ∃ ops l', run Limited.step l ops = some l' ∧ Slotted env (es ++ [.wake c input]) s' l' := by
  obtain ⟨_, _, _, _, _, he, -⟩ | ⟨_, _, conn, ing', phase, he, hconn, hr, rfl⟩ := step_cases hs
  · cases he
  obtain ⟨rfl, rfl⟩ : c = _ ∧ input = _ := by simpa using he
  have hfrees := resume_frees env hr
  have hlimiter := hfrees.limiter
  have hticks : env.clock s.ing.ticks ≤ env.clock ing'.ticks := hmono hfrees.ticks
  have hopen := resume_unclosed hr
  have harrivals : arrivals (es ++ [.wake c input]) = arrivals es := by simp [arrivals]
  have hholders := settle_holders h hconn phase ing' hopen
  by_cases hclosed : phase = .closed
  · have hheld : 0 < openOf conn.peer.ip l.history := by
      rw [h.opened, hholders, if_pos ⟨rfl, hclosed⟩]
      exact Nat.succ_pos _
    refine ⟨[.release conn.peer.ip],
      ⟨l.limiter.release conn.peer.ip, l.history ++ [.released conn.peer.ip]⟩,
      ?_, ?_, ?_, ?_, ?_, ?_⟩
    · rw [run_cons, Limited.step, if_pos hheld]
      rfl
    · rw [h.limiter]
      exact (hlimiter.trans (if_pos hclosed)).symm
    · intro ip
      rw [← (tracks_release htracks conn.peer.ip hheld).live, release_live, htracks.live, h.opened,
        harrivals, hholders]
      by_cases hip : ip = conn.peer.ip
      · simp [hip, hclosed]
      · simp [hip, Ne.symm hip]
    · apply settled_push h.settled hticks
      intro t ht
      cases ht
    · rw [harrivals]
      exact h.nodup
    · rw [harrivals]
      exact settle_known h hconn phase ing'
  · refine ⟨[], l, rfl, ?_, ?_, ?_, ?_, ?_⟩
    · rw [h.limiter]
      exact (hlimiter.trans (if_neg hclosed)).symm
    · intro ip
      rw [h.opened, harrivals, hholders, if_neg fun hboth ↦ hclosed hboth.2, Nat.add_zero]
    · exact settled_later h.settled hticks
    · rw [harrivals]
      exact h.nodup
    · rw [harrivals]
      exact settle_known h hconn phase ing'

theorem run_slotted (hpos : ∀ n, 0 < env.clock n) (hmono : Monotone env.clock)
    (hrun : run (System.step env) (.init maxConcurrent maxPerMinute) es = some s) :
    ∃ ops l, run Limited.step (.init maxConcurrent maxPerMinute) ops = some l ∧
      Slotted env es s l := by
  refine run_induction (P := fun _ _ _ ↦ True) (I := fun es s ↦ ∃ ops l,
    run Limited.step (.init maxConcurrent maxPerMinute) ops = some l ∧ Slotted env es s l) ?_ ?_
    (throughout_true es) hrun
  · refine ⟨[], _, rfl, rfl, ?_, ?_, List.nodup_nil, ?_⟩
    · exact fun ip ↦ rfl
    · intro t ht
      cases ht
    · intro c
      simp [arrivals, System.init]
  · intro es m e m' _ ⟨ops, l, hl, hslots⟩ _ hs
    obtain ⟨htracks, -⟩ := run_bounded hl
    cases e with
    | accept c peer nonce =>
      obtain ⟨l', hl', hslots'⟩ := slotted_accept hpos hmono hslots htracks hs
      exact ⟨ops ++ [_], l', run_snoc hl hl', hslots'⟩
    | wake c input =>
      obtain ⟨ops', l', hl', hslots'⟩ := slotted_wake hmono hslots htracks hs
      exact ⟨ops ++ ops', l', run_trans hl hl', hslots'⟩

/-- The limiter decides by its history: it accepts if and only if fewer connections of the
address are unreleased and fewer were accepted in the last minute than its limits, the minute
measured in doubles, so that both limits hold at all times. `handle` releases the slot of
each accepted connection once, and in every run of the process an address has as many
unreleased connections as open ones. -/
theorem limiter_meets_history (maxConcurrent maxPerMinute : ℤ) :
    (∀ ops s, run Limited.step (.init maxConcurrent maxPerMinute) ops = some s →
      (∀ ip time, Settled time s.history → ((s.limiter.allow ip time).2.1 = true ↔
        (openOf ip s.history : ℤ) < maxConcurrent ∧
          (recentOf ip time s.history : ℤ) < maxPerMinute)) ∧
      (∀ ip, (openOf ip s.history : ℤ) ≤ max maxConcurrent 0) ∧
      ∀ ip start, (minuteFrom ip start s.history : ℤ) ≤ max maxPerMinute 0) ∧
    (∀ (env : Env) (registry : Registry) (link : Link) (ing : Ingest),
      (ing.handle env registry link).1.limiter =
        if (ing.allow env link.peer).2 = true then
          (ing.allow env link.peer).1.limiter.release link.peer.ip
        else (ing.allow env link.peer).1.limiter) ∧
    ∀ (env : Env) (es : List Event) (s : System), (∀ n, 0 < env.clock n) → Monotone env.clock →
      run (System.step env) (.init maxConcurrent maxPerMinute) es = some s →
      ∃ ops l, run Limited.step (.init maxConcurrent maxPerMinute) ops = some l ∧
        l.limiter = s.ing.limiter ∧
        ∀ ip, openOf ip l.history = (arrivals es).countP (s.holds ip) := by
  refine ⟨?_, ?_, ?_⟩
  · intro ops s hrun
    obtain ⟨htracks, hbounded⟩ := run_bounded hrun
    exact ⟨fun ip time ↦ htracks.allow_iff ip, hbounded.opened, hbounded.minute⟩
  · exact handle_limiter
  · intro env es s hpos hmono hrun
    obtain ⟨ops, l, hl, hslots⟩ := run_slotted hpos hmono hrun
    exact ⟨ops, l, hl, hslots.limiter, hslots.opened⟩

def tenth : Time := 3602879701896397 / 2 ^ 55

def minuteLater : Time := 8458323050155213 / 2 ^ 47

/-- More than 60 seconds lie between the two, but the difference of the doubles is 60.0: the second
attempt is refused, with none accepted in the minute before it. -/
theorem minute_rounds :
    (run Limited.step (.init 64 1) [.allow (lit "x") tenth]).map (fun s ↦
      (decide (Settled minuteLater s.history), (s.limiter.allow (lit "x") minuteLater).2.1,
        openOf (lit "x") s.history, (acceptances (lit "x") s.history).countP fun t : Time ↦
          (minuteLater : ℚ) - 60 ≤ (t : ℚ) ∧ t ≤ minuteLater)) = some (true, false, 1, 0) := by
  decide +kernel

/-- An address at its limit of one connection, and a process with one connection open. -/
theorem limiter_meets_history_one :
    (∃ s, run Limited.step (.init 1 120) [.allow (lit "a") 1] = some s ∧
      ((s.limiter.allow (lit "a") 2).2.1 = true ↔
        (openOf (lit "a") s.history : ℤ) < 1 ∧ (recentOf (lit "a") 2 s.history : ℤ) < 120) ∧
      (openOf (lit "a") s.history : ℤ) ≤ max 1 0) ∧
    ∃ s, run (System.step { Env.calm .disabled with clock := fun _ ↦ 1 }) (.init 1 120)
        [.accept 0 (Link.lone []).peer (Link.lone []).nonce] = some s ∧
      ∃ ops l, run Limited.step (.init 1 120) ops = some l ∧ l.limiter = s.ing.limiter ∧
        ∀ ip, openOf ip l.history =
          (arrivals [.accept 0 (Link.lone []).peer (Link.lone []).nonce]).countP (s.holds ip) := by
  obtain ⟨hhistory, -, hslots⟩ := limiter_meets_history 1 120
  refine ⟨?_, ?_⟩
  · have hsettled : (run Limited.step (.init 1 120) [.allow (lit "a") 1]).map
        (fun s ↦ decide (Settled 2 s.history)) = some true := by decide +kernel
    obtain ⟨s, hs, hd⟩ := Option.map_eq_some_iff.mp hsettled
    obtain ⟨hallow, hopened, -⟩ := hhistory _ s hs
    exact ⟨s, hs, hallow _ 2 (of_decide_eq_true hd), hopened _⟩
  · exact ⟨_, rfl, hslots _ _ _ (fun _ ↦ one_pos) monotone_const rfl⟩

end Slots

end OpusFleet.Server
