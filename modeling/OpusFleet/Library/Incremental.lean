import Mathlib.Data.List.Basic

namespace OpusFleet.Library.Incremental

variable {α β : Type*}

/-- A parser that takes what it can from a buffer and hands back the rest,
and that loses nothing when the rest is parsed again with more input. -/
structure Resumable (parse : List α → List β × List α) : Prop where
  resume : ∀ buf more, parse (buf ++ more) =
    ((parse buf).1 ++ (parse ((parse buf).2 ++ more)).1, (parse ((parse buf).2 ++ more)).2)

def feed (parse : List α → List β × List α) : List α → List (List α) → List β × List α
  | buf, [] => ([], buf)
  | buf, chunk :: chunks =>
    let head := parse (buf ++ chunk)
    let tail := feed parse head.2 chunks
    (head.1 ++ tail.1, tail.2)

variable {parse : List α → List β × List α}

@[simp] theorem feed_nil (buf : List α) : feed parse buf [] = ([], buf) := rfl

theorem feed_cons (buf chunk : List α) (chunks : List (List α)) :
    feed parse buf (chunk :: chunks) =
      ((parse (buf ++ chunk)).1 ++ (feed parse (parse (buf ++ chunk)).2 chunks).1,
        (feed parse (parse (buf ++ chunk)).2 chunks).2) := rfl

theorem Resumable.parse_rest (h : Resumable parse) (buf : List α) :
    parse (parse buf).2 = ([], (parse buf).2) := by
  have hr := h.resume buf []
  simp only [List.append_nil] at hr
  have h₁ := congrArg Prod.fst hr
  have h₂ := congrArg Prod.snd hr
  exact Prod.ext (List.self_eq_append_right.mp h₁) h₂.symm

theorem Resumable.feed_settled (h : Resumable parse) (buf : List α)
    (hbuf : parse buf = ([], buf)) (chunks : List (List α)) :
    feed parse buf chunks = parse (buf ++ chunks.flatten) := by
  induction chunks generalizing buf with
  | nil => simp [hbuf]
  | cons chunk chunks ih =>
    rw [feed_cons, ih _ (h.parse_rest _), List.flatten_cons, ← List.append_assoc,
      h.resume (buf ++ chunk)]

theorem Resumable.feed_eq (h : Resumable parse) (buf : List α) (chunks : List (List α))
    (hne : chunks ≠ []) : feed parse buf chunks = parse (buf ++ chunks.flatten) := by
  obtain ⟨chunk, chunks, rfl⟩ := List.exists_cons_of_ne_nil hne
  rw [feed_cons, h.feed_settled _ (h.parse_rest _), List.flatten_cons, ← List.append_assoc,
    h.resume (buf ++ chunk)]

end OpusFleet.Library.Incremental
