import Mathlib.Data.List.Flatten
import OpusFleet.Server.Quiet
import OpusFleet.Server.Uploads

namespace OpusFleet.Server.Segmenter

open Python Library

variable {c : Env} {s : State} {es : List Event}

/-- The calls of `put_segment` that do not raise, the first of them being call number `n`. -/
def succeeded (stores : ℕ → Bool) : ℕ → List Put → List Put
  | _, [] => []
  | n, p :: ps => if stores n then p :: succeeded stores (n + 1) ps else succeeded stores (n + 1) ps

/-- The packets of a device in the segments that were stored. -/
def stored (c : Env) (imei : Str) (s : State) : List Bytes :=
  (succeeded c.stores 0 s.puts).flatMap fun p ↦ if p.seg.imei = imei then p.seg.packets else []

/-- Every packet consumed is in one stored object or still pending, in order. -/
structure Safe (c : Env) (es : List Event) (s : State) : Prop where
  conserved : ∀ imei, stored c imei s ++ pending imei s = heard imei es
  built : ∀ p ∈ succeeded c.stores 0 s.puts, p.Built
  keys : ((succeeded c.stores 0 s.puts).map Put.key).Nodup
  objects : ∀ p ∈ succeeded c.stores 0 s.puts, s.store.get p.key = some p.data

section Succeeded

variable {stores : ℕ → Bool}

theorem succeeded_sublist (stores : ℕ → Bool) (n : ℕ) (ps : List Put) :
    (succeeded stores n ps).Sublist ps := by
  induction ps generalizing n with
  | nil => exact List.Sublist.refl _
  | cons p ps ih =>
    rw [succeeded]
    split
    · exact (ih _).cons_cons p
    · exact (ih _).cons p

theorem succeeded_all {n : ℕ} {ps : List Put} (h : ∀ k < ps.length, stores (n + k) = true) :
    succeeded stores n ps = ps := by
  induction ps generalizing n with
  | nil => rfl
  | cons p ps ih =>
    have hfirst : stores n = true := h 0 (by simp)
    rw [succeeded, if_pos hfirst, ih]
    intro k hk
    rw [Nat.add_right_comm]
    exact h (k + 1) (by simpa using hk)

theorem succeeded_append (n : ℕ) (ps qs : List Put) :
    succeeded stores n (ps ++ qs) = succeeded stores n ps ++ succeeded stores
      (n + ps.length) qs := by
  induction ps generalizing n with
  | nil => rfl
  | cons p ps ih =>
    have hlen : n + (ps.length + 1) = n + 1 + ps.length := by omega
    rw [List.cons_append, succeeded, succeeded, ih, List.length_cons, hlen]
    split <;> rfl

end Succeeded

theorem stored_all (h : ∀ n < s.puts.length, c.stores n = true) (imei : Str) :
    stored c imei s = sent imei s := by
  rw [stored, succeeded_all fun k hk ↦ by rw [Nat.zero_add]; exact h k hk]
  rfl

theorem stored_lt {before after : List Put} {p : Put} (hcut : s.puts = before ++ p :: after)
    (hfails : c.stores before.length = false) (hne : p.seg.packets ≠ []) :
    (stored c p.seg.imei s).length < (sent p.seg.imei s).length := by
  have hbefore := ((succeeded_sublist c.stores 0 before).flatMap fun q ↦
    if q.seg.imei = p.seg.imei then q.seg.packets else []).length_le
  have hafter := ((succeeded_sublist c.stores (before.length + 1) after).flatMap fun q ↦
    if q.seg.imei = p.seg.imei then q.seg.packets else []).length_le
  have hpos := List.length_pos_of_ne_nil hne
  have hlost : succeeded c.stores before.length (p :: after) =
      succeeded c.stores (before.length + 1) after := by
    rw [succeeded, hfails, if_neg Bool.false_ne_true]
  rw [stored, sent, hcut, succeeded_append, Nat.zero_add, hlost, List.flatMap_append,
    List.flatMap_append,
    List.flatMap_cons, if_pos rfl, List.length_append, List.length_append, List.length_append]
  omega

/-- What failed uploads leave behind: in a run without clashes all packets are safe exactly if no
call of `put_segment` raised. -/
theorem outage_safe_iff (hrun : Runs.run (step c) .init es = some s) :
    ((∀ n < s.puts.length, c.stores n = true) ∧
        Runs.Throughout (step c) (fun s e _ ↦ ¬Clashes c s e) .init es → Safe c es s) ∧
      (Safe c es s → (∀ n < s.puts.length, c.stores n = true) ∧
        ((∀ x, s.status ≠ .raised x) →
          Runs.Throughout (step c) (fun s e _ ↦ ¬Clashes c s e) .init es)) := by
  have hbuilt := (run_refines hrun).1.built
  have hall (hstores : ∀ n < s.puts.length, c.stores n = true) :
      succeeded c.stores 0 s.puts = s.puts :=
    succeeded_all fun k hk ↦ by rw [Nat.zero_add]; exact hstores k hk
  constructor
  · intro ⟨hstores, hclash⟩
    have hkept := (kept_iff hrun hstores).mpr (run_slots hrun hclash)
    refine ⟨fun imei ↦ ?_, ?_, ?_, ?_⟩
    · rw [stored_all hstores]
      exact run_conserves hrun imei
    · rw [hall hstores]
      exact hbuilt
    · rw [hall hstores]
      exact hkept.1
    · rw [hall hstores]
      exact hkept.2
  · intro hsafe
    have hstores : ∀ n < s.puts.length, c.stores n = true := by
      intro n hn
      by_contra hfails
      have hcut : s.puts = s.puts.take n ++ s.puts[n] :: s.puts.drop (n + 1) := by
        rw [← List.drop_eq_getElem_cons hn, List.take_append_drop]
      have hlen : (s.puts.take n).length = n := List.length_take_of_le hn.le
      have hlt := stored_lt hcut (by simpa [hlen] using hfails) (hbuilt _ (List.getElem_mem hn)).1
      have hconserved := congrArg List.length (hsafe.conserved s.puts[n].seg.imei)
      rw [← run_conserves hrun s.puts[n].seg.imei, List.length_append,
        List.length_append] at hconserved
      omega
    refine ⟨hstores, fun hsound ↦ slots_unclashed hrun hsound ?_⟩
    apply (kept_iff hrun hstores).mp
    have hkeys := hsafe.keys
    have hobjects := hsafe.objects
    rw [hall hstores] at hkeys hobjects
    exact ⟨hkeys, hobjects⟩

theorem outage_safe_iff_two :
    ∃ s, Runs.run (step everyPacket) .init [spoken [7], spoken [8], .interrupt] = some s ∧
      s.puts.length = 2 ∧ Safe everyPacket [spoken [7], spoken [8], .interrupt] s := by
  obtain ⟨s, hrun, hkeys, hclash⟩ := two_unclashed
  exact ⟨s, hrun, by simpa using congrArg List.length hkeys,
    (outage_safe_iff hrun).1 ⟨fun _ _ ↦ rfl, hclash⟩⟩

/-- The store fails once, and the clock shows 0 when the first packet comes and 250 from then on. -/
def outage : Env := { pausing 250 with stores := fun n ↦ n ≠ 0 }

/-- The upload of the first packet fails at the idle tick, and no later one has it. -/
theorem outage_loses :
    heard (lit "A") [spoken [7], .idle, spoken [8], .interrupt] = [[7], [8]] ∧
    (Runs.run (step outage) .init [spoken [7], .idle, spoken [8], .interrupt]).map
      (fun s ↦ (stored outage (lit "A") s, pending (lit "A") s)) = some ([[8]], []) := by
  decide +kernel

end OpusFleet.Server.Segmenter
