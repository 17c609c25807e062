import Mathlib.Data.List.Induction

namespace OpusFleet.Library.Runs

theorem concat_eq_cut {α : Type*} {xs pre post : List α} {x y : α}
    (h : xs ++ [x] = pre ++ y :: post) :
    (pre = xs ∧ y = x ∧ post = []) ∨ ∃ post', post = post' ++ [x] ∧ xs = pre ++ y :: post' := by
  cases post using List.reverseRecOn with
  | nil =>
    obtain ⟨rfl, hx⟩ := List.append_inj' h rfl
    exact .inl ⟨rfl, (List.singleton_inj.mp hx).symm, rfl⟩
  | append_singleton post z =>
    have h' : xs ++ [x] = (pre ++ y :: post) ++ [z] := by simpa using h
    obtain ⟨hxs, hx⟩ := List.append_inj' h' rfl
    obtain rfl := List.singleton_inj.mp hx
    exact .inr ⟨post, rfl, hxs⟩

variable {σ α : Type*} (step : σ → α → Option σ)

/-- The state after a list of events, if each event is enabled where it comes. -/
def run : σ → List α → Option σ
  | s, [] => some s
  | s, e :: es => (step s e).bind fun s' ↦ run s' es

@[simp] theorem run_nil (s : σ) : run step s [] = some s := rfl

@[simp] theorem run_cons (s : σ) (e : α) (es : List α) :
    run step s (e :: es) = (step s e).bind fun s' ↦ run step s' es := rfl

theorem run_append (s : σ) (es es' : List α) :
    run step s (es ++ es') = (run step s es).bind fun m ↦ run step m es' := by
  induction es generalizing s with
  | nil => rfl
  | cons e es ih =>
    simp only [List.cons_append, run_cons]
    cases step s e with
    | none => rfl
    | some m => exact ih m

variable {step} in
theorem run_trans {s m s' : σ} {es es' : List α} (h : run step s es = some m)
    (h' : run step m es' = some s') : run step s (es ++ es') = some s' := by
  rw [run_append, h]
  exact h'

variable {step} in
theorem run_snoc {s m s' : σ} {es : List α} {e : α} (h : run step s es = some m)
    (h' : step m e = some s') : run step s (es ++ [e]) = some s' := by
  rw [run_append, h]
  simpa using h'

theorem run_concat {s s' : σ} {es : List α} {e : α} :
    run step s (es ++ [e]) = some s' ↔ ∃ m, run step s es = some m ∧ step m e = some s' := by
  rw [run_append, Option.bind_eq_some_iff]
  simp

/-- `P` holds of every step that the run takes. -/
def Throughout (P : σ → α → σ → Prop) (s : σ) (es : List α) : Prop :=
  ∀ before e after m m', es = before ++ e :: after → run step s before = some m →
    step m e = some m' → P m e m'

/-- `P` holds of every event of the run, of the events before it and of the state that it meets. -/
def Along (P : List α → σ → α → Prop) (s : σ) (es : List α) : Prop :=
  ∀ before e after m, es = before ++ e :: after → run step s before = some m → P before m e

variable {step} {P : σ → α → σ → Prop} {s : σ}

theorem Throughout.init {es : List α} {e : α} (h : Throughout step P s (es ++ [e])) :
    Throughout step P s es := by
  intro before e' after m m' he hb hs
  refine h before e' (after ++ [e]) m m' ?_ hb hs
  rw [he, List.append_assoc, List.cons_append]

theorem Throughout.tail {e : α} {es : List α} {m : σ} (h : Throughout step P s (e :: es))
    (hm : step s e = some m) : Throughout step P m es := by
  intro before e' after m₁ m₂ he hb hs
  refine h (e :: before) e' after m₁ m₂ (by rw [he, List.cons_append]) ?_ hs
  rw [run_cons, hm]
  exact hb

theorem throughout_nil : Throughout step P s [] := by
  intro before e after m m' he
  simp at he

theorem throughout_cons {e : α} {es : List α} (hfirst : ∀ m, step s e = some m → P s e m)
    (hrest : ∀ m, step s e = some m → Throughout step P m es) : Throughout step P s (e :: es) := by
  intro before e' after m m' he hb hs
  cases before with
  | nil =>
    obtain ⟨rfl, rfl⟩ : e = e' ∧ es = after := by simpa using he
    obtain rfl : s = m := by simpa using hb
    exact hfirst m' hs
  | cons x before =>
    obtain ⟨rfl, rfl⟩ : e = x ∧ es = before ++ e' :: after := by simpa using he
    obtain ⟨m₁, hm₁, hb'⟩ := Option.bind_eq_some_iff.mp hb
    exact hrest m₁ hm₁ before e' after m m' rfl hb' hs

theorem throughout_append {es es' : List α} (h : Throughout step P s es)
    (h' : ∀ m, run step s es = some m → Throughout step P m es') :
    Throughout step P s (es ++ es') := by
  induction es generalizing s with
  | nil => exact h' s rfl
  | cons e es ih =>
    apply throughout_cons
    · exact fun m hm ↦ h [] e es s m rfl rfl hm
    · intro m hm
      refine ih (h.tail hm) fun m' hm' ↦ h' m' ?_
      rw [run_cons, hm]
      exact hm'

theorem throughout_concat {es : List α} {e : α} {m m' : σ} (hm : run step s es = some m)
    (hs : step m e = some m') :
    Throughout step P s (es ++ [e]) ↔ Throughout step P s es ∧ P m e m' := by
  constructor
  · exact fun h ↦ ⟨h.init, h es e [] m m' rfl hm hs⟩
  · rintro ⟨h, hlast⟩
    refine throughout_append h fun m₁ hm₁ ↦ ?_
    obtain rfl : m = m₁ := Option.some.inj (hm.symm.trans hm₁)
    refine throughout_cons (fun m₂ hm₂ ↦ ?_) fun _ _ ↦ throughout_nil
    obtain rfl : m' = m₂ := Option.some.inj (hs.symm.trans hm₂)
    exact hlast

theorem run_cut {s' : σ} {before after : List α} {e : α}
    (h : run step s (before ++ e :: after) = some s') :
    ∃ m m', run step s before = some m ∧ step m e = some m' ∧ run step m' after = some s' := by
  rw [run_append] at h
  obtain ⟨m, hm, hrest⟩ := Option.bind_eq_some_iff.mp h
  obtain ⟨m', hm', hafter⟩ := Option.bind_eq_some_iff.mp hrest
  exact ⟨m, m', hm, hm', hafter⟩

/-- What holds at the start and is kept by each step holds after every run. -/
theorem run_induction {I : List α → σ → Prop} (hinit : I [] s)
    (hstep : ∀ es m e m', run step s es = some m → I es m → P m e m' → step m e = some m' →
      I (es ++ [e]) m')
    {es : List α} {s' : σ} (hP : Throughout step P s es) (hrun : run step s es = some s') :
    I es s' := by
  induction es using List.reverseRecOn generalizing s' with
  | nil =>
    obtain rfl : s = s' := by simpa using hrun
    exact hinit
  | append_singleton es e ih =>
    obtain ⟨m, hm, he⟩ := (run_concat step).mp hrun
    apply hstep es m e s' hm (ih hP.init hm) ?_ he
    exact hP es e [] m s' rfl hm he

theorem throughout_true (es : List α) : Throughout step (fun _ _ _ ↦ True) s es :=
  fun _ _ _ _ _ _ _ _ ↦ trivial

variable {Q : List α → σ → α → Prop}

theorem Along.init {es : List α} {e : α} (h : Along step Q s (es ++ [e])) : Along step Q s es := by
  intro before e' after m he hb
  refine h before e' (after ++ [e]) m ?_ hb
  rw [he, List.append_assoc, List.cons_append]

theorem along_nil : Along step Q s [] := by
  intro before e after m he
  simp at he

theorem along_concat {es : List α} {e : α} {m : σ} (hm : run step s es = some m)
    (h : Along step Q s es) (hlast : Q es m e) : Along step Q s (es ++ [e]) := by
  intro before e' after m' he hb
  rcases concat_eq_cut he with ⟨rfl, rfl, -⟩ | ⟨after', -, rfl⟩
  · obtain rfl : m = m' := Option.some.inj (hm.symm.trans hb)
    exact hlast
  · exact h before e' after' m' rfl hb

theorem run_along {I : List α → σ → Prop} (hinit : I [] s)
    (hstep : ∀ es m e m', I es m → Q es m e → step m e = some m' → I (es ++ [e]) m')
    {es : List α} {s' : σ} (hQ : Along step Q s es) (hrun : run step s es = some s') : I es s' := by
  induction es using List.reverseRecOn generalizing s' with
  | nil =>
    obtain rfl : s = s' := by simpa using hrun
    exact hinit
  | append_singleton es e ih =>
    obtain ⟨m, hm, he⟩ := (run_concat step).mp hrun
    exact hstep es m e s' (ih hQ.init hm) (hQ es e [] m rfl hm) he

theorem rel_imp {β : Type*} {R S : α → β → Prop} (h : ∀ a b, R a b → S a b)
    {x : Option α} {y : Option β} (hxy : Option.Rel R x y) : Option.Rel S x y := by
  cases hxy with
  | none => exact .none
  | some hab => exact .some (h _ _ hab)

theorem rel_some_left {β : Type*} {R : α → β → Prop} {a : α} {y : Option β}
    (h : Option.Rel R (some a) y) :
    ∃ b, y = some b ∧ R a b := by
  cases h with
  | some hab => exact ⟨_, rfl, hab⟩

theorem run_rel {τ : Type*} {step' : τ → α → Option τ} {R : σ → τ → Prop}
    (hstep : ∀ s t e, R s t → Option.Rel R (step s e) (step' t e)) {s : σ} {t : τ} (h : R s t)
    (es : List α) :
    Option.Rel R (run step s es) (run step' t es) := by
  induction es generalizing s t with
  | nil => exact .some h
  | cons e es ih =>
    have hrel := hstep s t e h
    rw [run_cons, run_cons]
    generalize step s e = x, step' t e = y at hrel ⊢
    cases hrel with
    | none => exact .none
    | some hst => exact ih hst

end OpusFleet.Library.Runs
