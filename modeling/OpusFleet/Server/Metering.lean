import OpusFleet.Library.Groups
import OpusFleet.Server.Levels

namespace OpusFleet.Server.Levels

open Python Library Library.Groups

structure Addition where
  pcm : Bytes
  now : ℚ
  deriving DecidableEq

namespace Addition

def second (a : Addition) : ℤ := Storage.truncate a.now

def Whole (a : Addition) : Prop := a.pcm ≠ [] ∧ a.pcm.length % 2 = 0

instance (a : Addition) : Decidable a.Whole := inferInstanceAs (Decidable (_ ∧ _))

end Addition

/-- The calls of `add` one after the other: the meter they leave and
the records that they return. -/
def Meter.addAll (num : Numerics) : Meter → List Addition → Except Exc (Meter × List Record)
  | m, [] => .ok (m, [])
  | m, a :: rest =>
    match m.add num a.pcm a.now with
    | .error e => .error e
    | .ok (m, out) => (addAll num m rest).map fun p ↦ (p.1, out.toList ++ p.2)

def samples (run : List Addition) : List ℤ := run.flatMap fun a ↦ int16s a.pcm

def squares (a : List ℤ) : ℕ := (a.map fun x ↦ x.natAbs ^ 2).sum

/-- Sums of integers are exact in doubles as long as none of them is above `2^53`. -/
def Numerics.Exact (num : Numerics) : Prop :=
  ∀ a, squares a ≤ 2 ^ 53 → num.dot a = .finite (squares a : ℕ)

def sumSq (num : Numerics) (run : List Addition) : PyFloat :=
  run.foldl (fun sum a ↦ sum.add (num.dot (int16s a.pcm))) (.finite 0)

/-- What a meter has taken in since its last record: the additions of one
second, each frame counted once. -/
structure Holds (num : Numerics) (run : List Addition) (m : Meter) : Prop where
  second : ∀ a ∈ run, m.sec = some a.second
  sumSq : m.sumSq = sumSq num run
  n : m.n = (samples run).length
  peak : m.peak = loudest (samples run)
  frames : m.frames = run.length

/-- The record of a run of additions: its second, its frames, and levels
computed from its samples alone. -/
structure Reports (num : Numerics) (run : List Addition) (rec : Record) : Prop where
  t : ∀ a ∈ run, rec.t = a.second
  f : rec.f = run.length
  db : rec.db = num.db (sumSq num run) (samples run).length
  pk : rec.pk = num.pk (max (loudest (samples run)) 1)

section Samples

theorem int16s_length (pcm : Bytes) : (int16s pcm).length = pcm.length / 2 := by
  fun_induction int16s pcm with
  | case1 lo hi rest ih => simp only [List.length_cons, ih]; omega
  | case2 pcm h =>
    rcases pcm with _ | ⟨b, _ | ⟨b', rest⟩⟩
    · rfl
    · simp
    · exact (h b b' rest rfl).elim

theorem int16s_ne_nil {a : Addition} (h : a.Whole) : int16s a.pcm ≠ [] := by
  obtain ⟨hne, heven⟩ := h
  have hlength := int16s_length a.pcm
  have hpos := List.length_pos_iff.mpr hne
  apply List.ne_nil_of_length_pos
  omega

theorem loudest_append (a b : List ℤ) : loudest (a ++ b) = max (loudest a) (loudest b) := by
  induction a with
  | nil => simp [loudest]
  | cons x a ih =>
    simp only [loudest, List.cons_append, List.foldr_cons] at ih ⊢
    rw [ih, max_assoc]

theorem squares_append (a b : List ℤ) : squares (a ++ b) = squares a + squares b := by
  simp [squares]

theorem int16_natAbs (lo hi : UInt8) : (int16 lo hi).natAbs ≤ 2 ^ 15 := by
  have hlo := lo.toNat_lt
  have hhi := hi.toNat_lt
  simp only [int16]
  split <;> omega

theorem int16s_natAbs {pcm : Bytes} {x : ℤ} (hx : x ∈ int16s pcm) : x.natAbs ≤ 2 ^ 15 := by
  fun_induction int16s pcm with
  | case1 lo hi rest ih =>
    rcases List.mem_cons.mp hx with rfl | hx
    · exact int16_natAbs lo hi
    · exact ih hx
  | case2 pcm h => exact absurd hx List.not_mem_nil

theorem squares_samples_le (run : List Addition) :
    squares (samples run) ≤ (samples run).length * 2 ^ 30 := by
  have hsample : ∀ y ∈ (samples run).map (fun x ↦ x.natAbs ^ 2), y ≤ 2 ^ 30 := by
    intro y hy
    obtain ⟨x, hx, rfl⟩ := List.mem_map.mp hy
    obtain ⟨a, -, hx⟩ := List.mem_flatMap.mp hx
    calc x.natAbs ^ 2 ≤ (2 ^ 15) ^ 2 := Nat.pow_le_pow_left (int16s_natAbs hx) 2
      _ = 2 ^ 30 := by decide
  have hsum := List.sum_le_card_nsmul _ _ hsample
  rwa [List.length_map] at hsum

theorem samples_concat (run : List Addition) (a : Addition) :
    samples (run ++ [a]) = samples run ++ int16s a.pcm := by
  simp [samples]

theorem sumSq_concat (num : Numerics) (run : List Addition) (a : Addition) :
    sumSq num (run ++ [a]) = (sumSq num run).add (num.dot (int16s a.pcm)) := List.foldl_concat ..

/-- The doubles hold the sum of squares over the integers as long as it is at most `2^53`. -/
theorem sumSq_exact {num : Numerics} (hnum : num.Exact) {run : List Addition}
    (h : squares (samples run) ≤ 2 ^ 53) : sumSq num run = .finite (squares (samples run) : ℕ) := by
  induction run using List.reverseRecOn with
  | nil => rfl
  | append_singleton run a ih =>
    rw [samples_concat, squares_append] at h ⊢
    rw [sumSq_concat, ih (by omega), hnum _ (by omega), PyFloat.add_natCast h]

end Samples

section Meter

variable {num : Numerics} {m : Meter} {run : List Addition} {a : Addition}

theorem Holds.take (h : Holds num run m) (ha : a.Whole) (hsec : m.sec = some a.second) :
    Holds num (run ++ [a]) (m.take num (int16s a.pcm)) := by
  have hsamples := samples_concat run a
  have htake : m.take num (int16s a.pcm) =
      { m with
        sumSq := m.sumSq.add (num.dot (int16s a.pcm))
        n := m.n + (int16s a.pcm).length
        peak := max m.peak (loudest (int16s a.pcm))
        frames := m.frames + 1 } := by rw [Meter.take, if_neg (int16s_ne_nil ha)]
  rw [htake]
  constructor
  · intro b hb
    rcases List.mem_append.mp hb with hb | hb
    · exact h.second b hb
    · exact List.mem_singleton.mp hb ▸ hsec
  · rw [sumSq_concat, ← h.sumSq]
  · rw [hsamples, List.length_append, ← h.n]
  · rw [hsamples, loudest_append, ← h.peak]
  · rw [List.length_append, ← h.frames]
    rfl

theorem add_whole (num : Numerics) (m : Meter) (ha : a.Whole) : m.add num a.pcm a.now =
    .ok ((m.turn num a.second).1.take num (int16s a.pcm), (m.turn num a.second).2) := by
  simp only [Meter.add, frombuffer, if_pos ha.2, Addition.second]
  rfl

theorem holds_nil {imei : Str} {sec : Option ℤ} : Holds num [] ⟨imei, sec, .finite 0, 0, 0, 0⟩ :=
  ⟨fun _ h ↦ absurd h List.not_mem_nil, rfl, rfl, rfl, rfl⟩

theorem add_first (num : Numerics) (ha : a.Whole) (imei : Str) :
    ∃ m', (Meter.new imei).add num a.pcm a.now = .ok (m', none) ∧ Holds num [a] m' :=
  ⟨_, add_whole num _ ha, holds_nil.take ha rfl⟩

theorem add_join (h : Holds num run m) (ha : a.Whole) (hsec : m.sec = some a.second) :
    ∃ m', m.add num a.pcm a.now = .ok (m', none) ∧ Holds num (run ++ [a]) m' := by
  have hturn : m.turn num a.second = (m, none) := by simp [Meter.turn, hsec]
  have hadd := add_whole num m ha
  rw [hturn] at hadd
  exact ⟨_, hadd, h.take ha hsec⟩

theorem add_open (h : Holds num run m) (hrun : run ≠ []) (hwhole : ∀ b ∈ run, b.Whole)
    (ha : a.Whole) (hsec : ∀ b ∈ run, b.second ≠ a.second) :
    ∃ m' rec, m.add num a.pcm a.now = .ok (m', some rec) ∧ Reports num run rec ∧
      Holds num [a] m' := by
  obtain ⟨b, hb⟩ := List.exists_mem_of_ne_nil run hrun
  have hn : m.n ≠ 0 := by
    rw [h.n, ← Nat.pos_iff_ne_zero]
    refine List.length_pos_iff.mpr fun hempty ↦ int16s_ne_nil (hwhole b hb) ?_
    exact List.flatMap_eq_nil_iff.mp hempty b hb
  have hturn : m.turn num a.second = (⟨m.imei, some a.second, .finite 0, 0, 0, 0⟩,
      some ⟨b.second, num.db m.sumSq m.n, num.pk (max m.peak 1), m.frames⟩) := by
    simp only [Meter.turn, h.second b hb, Meter.emit, if_neg hn, ne_eq, (hsec b hb).symm,
      not_false_eq_true, if_true]
  have hadd := add_whole num m ha
  rw [hturn] at hadd
  refine ⟨_, _, hadd, ⟨fun c hc ↦ ?_, h.frames, ?_, ?_⟩, holds_nil.take ha rfl⟩
  · exact Option.some.inj ((h.second b hb).symm.trans (h.second c hc))
  · exact congrArg₂ num.db h.sumSq h.n
  · exact congrArg (fun p ↦ num.pk (max p 1)) h.peak

theorem addAll_snoc {m m' m'' : Meter} {additions : List Addition} {outs : List Record}
    {out : Option Record}
    (h : m.addAll num additions = .ok (m', outs)) (ha : m'.add num a.pcm a.now = .ok (m'', out)) :
    m.addAll num (additions ++ [a]) = .ok (m'', outs ++ out.toList) := by
  induction additions generalizing m outs with
  | nil =>
    obtain ⟨rfl, rfl⟩ : m = m' ∧ [] = outs := by simpa [Meter.addAll] using h
    simp [Meter.addAll, ha, Except.map]
  | cons b rest ih =>
    rw [List.cons_append, Meter.addAll]
    rw [Meter.addAll] at h
    cases hb : m.add num b.pcm b.now with
    | error e => simp [hb] at h
    | ok p =>
      obtain ⟨m₁, out₁⟩ := p
      simp only [hb] at h ⊢
      cases hrest : m₁.addAll num rest with
      | error e => simp [hrest, Except.map] at h
      | ok q =>
        obtain ⟨m₂, outs₂⟩ := q
        obtain ⟨rfl, rfl⟩ : m₂ = m' ∧ out₁.toList ++ outs₂ = outs := by
          simpa [hrest, Except.map] using h
        rw [ih hrest, Except.map, List.append_assoc]

/-- The runs before the last are reported, the last is what the meter holds. -/
theorem addAll_groups (imei : Str) {additions : List Addition} (hne : additions ≠ [])
    (hwhole : ∀ a ∈ additions, a.Whole) :
    ∃ meter records gs g, (Meter.new imei).addAll num additions = .ok (meter, records) ∧
      groups Addition.second additions = gs ++ [g] ∧ List.Forall₂ (Reports num) gs records ∧
      Holds num g meter := by
  induction additions using List.reverseRecOn with
  | nil => exact absurd rfl hne
  | append_singleton xs a ih =>
    have ha : a.Whole := hwhole a (by simp)
    by_cases hxs : xs = []
    · subst hxs
      obtain ⟨m, hadd, hm⟩ := add_first num ha imei
      have hone : (Meter.new imei).addAll num [] = .ok (.new imei, []) := rfl
      exact ⟨m, [], [], [a], addAll_snoc hone hadd, rfl, .nil, hm⟩
    · obtain ⟨m, records, gs, g, hall, hgroups, hreports, hm⟩ :=
        ih hxs fun b hb ↦ hwhole b (by simp [hb])
      have hg : g ≠ [] :=
        groups_ne_nil (hgroups ▸ List.mem_append_right gs (List.mem_singleton_self g))
      have hsub : ∀ b ∈ g, b.Whole := by
        intro b hb
        have hmem : b ∈ (groups Addition.second xs).flatten := by simp [hgroups, hb]
        rw [groups_flatten] at hmem
        exact hwhole b (by simp [hmem])
      by_cases hsec : m.sec = some a.second
      · obtain ⟨m', hadd, hm'⟩ := add_join hm ha hsec
        have hsame : ∀ b ∈ g, b.second = a.second :=
          fun b hb ↦ Option.some.inj ((hm.second b hb).symm.trans hsec)
        exact ⟨m', _, gs, g ++ [a], addAll_snoc hall hadd, groups_join hgroups hsame,
          (List.append_nil records).symm ▸ hreports, hm'⟩
      · have hother : ∀ b ∈ g, b.second ≠ a.second := fun b hb h ↦ hsec (h ▸ hm.second b hb)
        obtain ⟨m', rec, hadd, hrec, hm'⟩ := add_open hm hg hsub ha hother
        exact ⟨m', records ++ [rec], gs ++ [g], [a], addAll_snoc hall hadd,
          groups_open hgroups hother,
          List.rel_append hreports (.cons hrec .nil), hm'⟩

end Meter

section Loop

variable {env : Env} {s : State}

def reported (call : Call) : ℤ :=
  match call.field (lit "f") with
  | some (.int f) => f
  | _ => 0

def framesOf (imei : Str) (calls : List Call) : ℤ :=
  ((calls.filter fun call ↦ call.key = imei).map reported).sum

theorem framesOf_concat (x imei : Str) (calls : List Call) (rec : Record) :
    framesOf x (calls ++ [Api.levelRecord imei rec.t rec.db rec.pk rec.f]) =
      framesOf x calls + if imei = x then (rec.f : ℤ) else 0 := by
  have hreported : reported (Api.levelRecord imei rec.t rec.db rec.pk rec.f) = rec.f := rfl
  have hkey : (Api.levelRecord imei rec.t rec.db rec.pk rec.f).key = imei := rfl
  rw [framesOf, framesOf, List.filter_append, List.map_append, List.sum_append]
  by_cases h : imei = x
  · rw [List.filter_singleton, hkey, decide_eq_true h, cond_true, if_pos h,
      List.map_singleton, hreported, List.sum_singleton]
  · rw [List.filter_singleton, hkey, decide_eq_false h, cond_false, if_neg h,
      List.map_nil, List.sum_nil]

theorem emit_frames (num : Numerics) (m : Meter) (t : ℤ) :
    ((m.emit num t).2.elim 0 Record.f) + (m.emit num t).1.frames = m.frames := by
  rw [Meter.emit]
  split
  · exact Nat.zero_add _
  · rfl

theorem turn_frames (num : Numerics) (m : Meter) (sec : ℤ) :
    ((m.turn num sec).2.elim 0 Record.f) + (m.turn num sec).1.frames = m.frames := by
  cases hsec : m.sec with
  | none =>
    simp only [Meter.turn, hsec]
    exact Nat.zero_add _
  | some last =>
    by_cases hne : sec ≠ last
    · simp only [Meter.turn, hsec, if_pos hne]
      exact emit_frames num m last
    · simp only [Meter.turn, hsec, if_neg hne]
      exact Nat.zero_add _

theorem add_frames (num : Numerics) (m : Meter) {pcm : Bytes}
    (hpcm : pcm.length % 2 = 0) (now : ℚ) :
    ∃ m' out, m.add num pcm now = .ok (m', out) ∧
      (out.elim 0 Record.f) + m'.frames = m.frames + 1 := by
  have hturn := turn_frames num m (Storage.truncate now)
  refine ⟨(m.turn num (Storage.truncate now)).1.take num (int16s pcm),
    (m.turn num (Storage.truncate now)).2,
    ?_, ?_⟩
  · rw [Meter.add, frombuffer, if_pos hpcm]
    rfl
  · have htake (m : Meter) (a : List ℤ) : (m.take num a).frames = m.frames + 1 := by
      rw [Meter.take]
      split <;> rfl
    rw [htake]
    omega

/-- Every frame decoded for a device has been reported or is pending in its meter. -/
def Accounted (s : State) : Prop :=
  ∀ imei, framesOf imei s.produced + (s.meter imei).frames = s.decoded.count imei

theorem Accounted.meterFrame (h : Accounted s) (imei : Str) {pcm : Bytes}
    (hpcm : pcm.length % 2 = 0) :
    Accounted (meterFrame env { s with decoded := s.decoded ++ [imei] } imei pcm) := by
  obtain ⟨m, out, hadd, hframes⟩ := add_frames env.num (s.meter imei) hpcm (env.clock s.turns)
  have hmeter (x : Str) : ((s.meters.set imei m).get x).getD (.new x) = if imei = x then m
      else s.meter x := by
    by_cases hx : imei = x
    · subst hx
      simp
    · rw [Dict.get_set_ne _ _ (Ne.symm hx), if_neg hx, State.meter]
  have hcount (x : Str) : (s.decoded ++ [imei]).count x = s.decoded.count x + if imei = x
      then 1 else 0 := by
    simp [List.count_singleton]
  have hsplit (x : Str) (p : State) (hp : p.meters = s.meters.set imei m) (hd : p.decoded =
    s.decoded ++ [imei])
      (hf : framesOf x p.produced = framesOf x s.produced + if imei = x
        then ((out.elim 0 Record.f : ℕ) : ℤ) else 0) :
      framesOf x p.produced + (p.meter x).frames = p.decoded.count x := by
    have hx := h x
    rw [hf, hd, hcount, State.meter, hp, hmeter]
    split
    · next heq => subst heq; push_cast; omega
    · push_cast; omega
  intro x
  simp only [Levels.meterFrame]
  have hadd' : (State.meter { s with decoded :=
    s.decoded ++ [imei] } imei).add env.num pcm (env.clock s.turns) =
      .ok (m, out) := hadd
  rw [hadd']
  cases out with
  | none => exact hsplit x _ rfl rfl (by simp)
  | some rec => exact hsplit x _ rfl rfl (framesOf_concat x imei s.produced rec)

theorem Accounted.consume (hdecode : ∀ past opus pcm, env.decode past opus = some pcm →
    pcm.length % 2 = 0)
    (h : Accounted s) (key : Option Bytes) (value : Bytes) :
    Accounted (consume env s key value) := by
  rw [Levels.consume]
  split
  · exact h
  · next imei _ =>
    split
    · exact h
    · exact h
    · next audio _ =>
      dsimp only
      split
      · exact h
      · next pcm hpcm =>
        have hgiven :
            Accounted { s with decoders := s.decoders.set imei (s.past imei ++ [audio.opus]) } := h
        exact hgiven.meterFrame imei (hdecode _ _ _ hpcm)

theorem run_accounted (hdecode : ∀ past opus pcm, env.decode past opus = some pcm →
    pcm.length % 2 = 0)
    {es : List Segmenter.Event} (hrun : Runs.run (step env) .init es = some s) : Accounted s := by
  refine Runs.run_induction (I := fun _ ↦ Accounted) (fun imei ↦ rfl) (fun _ m e m' _ hm _ hs ↦ ?_)
    (Runs.throughout_true es) hrun
  rw [step] at hs
  split at hs
  · obtain rfl := Option.some.inj hs
    cases e with
    | idle | error | interrupt => exact hm
    | message key value =>
      exact Accounted.consume hdecode (s := { m with turns := m.turns + 1 }) hm key value
  · exact absurd hs (by simp)

end Loop

section Exactness

/-- The records are those of the maximal runs of additions in one second, all but the last, and
the meter holds the last. The sum of squares is the one over the integers up to `2^53`, which
takes more than `2^23` samples. In the role, what is reported and what is pending for a device
add up to its decoded frames. -/
theorem metering_exact {env : Env} (hnum : env.num.Exact)
    (hdecode : ∀ past opus pcm, env.decode past opus = some pcm → pcm.length % 2 = 0) :
    (∀ imei additions, (∀ a ∈ additions, a.Whole) →
      ∃ meter records, (Meter.new imei).addAll env.num additions = .ok (meter, records) ∧
        List.Forall₂ (Reports env.num) (groups Addition.second additions).dropLast records ∧
        (∀ run ∈ (groups Addition.second additions).getLast?, Holds env.num run meter) ∧
        ∀ run ∈ groups Addition.second additions,
          squares (samples run) ≤ (samples run).length * 2 ^ 30 ∧
          (squares (samples run) ≤ 2 ^ 53 →
            sumSq env.num run = .finite (squares (samples run) : ℕ))) ∧
    ∀ es s, Runs.run (step env) .init es = some s →
      ∀ imei, framesOf imei s.produced + (s.meter imei).frames = s.decoded.count imei := by
  refine ⟨fun imei additions hwhole ↦ ?_, fun es s hrun ↦ run_accounted hdecode hrun⟩
  by_cases hne : additions = []
  · subst hne
    exact ⟨_, [], rfl, .nil, fun run h ↦ by simp at h, fun run _ ↦
      ⟨squares_samples_le run, sumSq_exact hnum⟩⟩
  · obtain ⟨meter, records, gs, g, hall, hgroups, hreports, hholds⟩ := addAll_groups imei hne hwhole
    refine ⟨meter, records, hall, ?_, fun run h ↦ ?_, fun run _ ↦
      ⟨squares_samples_le run, sumSq_exact hnum⟩⟩
    · rwa [hgroups, List.dropLast_concat]
    · obtain rfl : g = run := by simpa [hgroups] using h
      exact hholds

/-- `np.dot(a, a)` rounded once, and the levels of silence. -/
def quiet : Numerics where
  dot a := .rounded (squares a)
  db _ _ := .rounded (-90.3)
  pk _ := .rounded (-90.3)

theorem quiet_exact : quiet.Exact := fun _ h ↦ PyFloat.rounded_natCast h

def silent : Env where
  num := quiet
  clock _ := 0
  decode _ opus := if opus = [] then none else some (List.replicate 1920 0)
  takes _ := true

theorem silent_decode {past : List Bytes} {opus pcm : Bytes}
    (h : silent.decode past opus = some pcm) :
    pcm.length % 2 = 0 := by
  simp only [silent] at h
  split at h
  · simp at h
  · obtain rfl := Option.some.inj h
    rw [List.length_replicate]

theorem metering_exact_silent :
    ∃ meter records,
      (Meter.new (lit "A")).addAll quiet [⟨[0, 0], 5.98⟩, ⟨[0, 0], 6⟩, ⟨[0, 0], 5.99⟩] =
        .ok (meter, records) ∧
      List.Forall₂ (Reports quiet) [[⟨[0, 0], 5.98⟩], [⟨[0, 0], 6⟩]] records := by
  have hgroups : groups Addition.second [⟨[0, 0], 5.98⟩, ⟨[0, 0], 6⟩, ⟨[0, 0], 5.99⟩] =
      [[⟨[0, 0], 5.98⟩], [⟨[0, 0], 6⟩], [⟨[0, 0], 5.99⟩]] := by decide +kernel
  obtain ⟨meter, records, hall, hreports, -⟩ := (@metering_exact silent quiet_exact
    fun _ _ _ ↦ silent_decode).1 (lit "A") [⟨[0, 0], 5.98⟩, ⟨[0, 0], 6⟩, ⟨[0, 0], 5.99⟩] (by decide)
  rw [hgroups] at hreports
  exact ⟨meter, records, hall, hreports⟩

theorem int16s_replicate (k : ℕ) :
    int16s (List.replicate k [0x00, 0x80]).flatten = List.replicate k (-32768) := by
  induction k with
  | zero => rfl
  | succ k ih =>
    rw [List.replicate_succ, List.flatten_cons, List.replicate_succ, ← ih]
    rfl

theorem squares_replicate (k : ℕ) (x : ℤ) : squares (List.replicate k x) = k * x.natAbs ^ 2 := by
  rw [squares, List.map_replicate, List.sum_replicate_nat]

def loud : Addition := ⟨(List.replicate (2 ^ 23) [0x00, 0x80]).flatten, 0⟩

def faint : Addition := ⟨[0x01, 0x00], 0⟩

theorem loud_whole : loud.Whole := by
  have hlength : loud.pcm.length = 2 ^ 23 * 2 := by
    rw [loud, List.length_flatten, List.map_replicate, List.sum_replicate_nat]
    rfl
  refine ⟨List.ne_nil_of_length_pos ?_, ?_⟩ <;> rw [hlength]
  · decide
  · decide

theorem loud_squares : squares (samples [loud]) = 2 ^ 53 := by
  rw [samples, List.flatMap_singleton, loud, int16s_replicate, squares_replicate]
  rfl

/-- The meter does not always hold the sum of squares over the integers. -/
theorem metering_rounds :
    ∃ meter, (Meter.new (lit "A")).addAll quiet [loud, faint] = .ok (meter, []) ∧
      groups Addition.second [loud, faint] = [[loud, faint]] ∧
      squares (samples [loud, faint]) = 2 ^ 53 + 1 ∧ meter.sumSq = .finite (2 ^ 53) := by
  have hfaint : faint.Whole := by decide
  have hsame : ∀ b ∈ [loud], b.second = faint.second :=
    fun b hb ↦ by rw [List.mem_singleton.mp hb]; rfl
  have hgroup : groups Addition.second [loud] = [] ++ [[loud]] := rfl
  have hone : (Meter.new (lit "A")).addAll quiet [] = .ok (.new (lit "A"), []) := rfl
  obtain ⟨m, hadd, hm⟩ := add_first quiet loud_whole (lit "A")
  have hsec : m.sec = some faint.second := hsame loud (by simp) ▸ hm.second loud (by simp)
  obtain ⟨m', hadd', hm'⟩ := add_join hm hfaint hsec
  have hsquares : squares (samples [loud, faint]) = 2 ^ 53 + 1 := by
    have hfaintest : squares (int16s faint.pcm) = 1 := rfl
    rw [show [loud, faint] = [loud] ++ [faint] from rfl, samples_concat, squares_append,
      loud_squares, hfaintest]
  have hsum : m'.sumSq = .finite (2 ^ 53) := by
    rw [hm'.sumSq, sumSq_concat, sumSq_exact quiet_exact loud_squares.le, loud_squares]
    decide +kernel
  have hall := addAll_snoc (addAll_snoc hone hadd) hadd'
  exact ⟨m', hall, groups_join hgroup hsame, hsquares, hsum⟩

end Exactness

end OpusFleet.Server.Levels
