import Mathlib.Data.List.Basic

namespace OpusFleet.Library.Rfc8259

abbrev Text := List ℕ

def Blank (s : Text) : Prop := ∀ c ∈ s, c = 32 ∨ c = 9 ∨ c = 10 ∨ c = 13

def Digit (c : ℕ) : Prop := 48 ≤ c ∧ c ≤ 57

instance (c : ℕ) : Decidable (Digit c) := inferInstanceAs (Decidable (48 ≤ c ∧ c ≤ 57))

def HexDigit (c : ℕ) : Prop := Digit c ∨ 65 ≤ c ∧ c ≤ 70 ∨ 97 ≤ c ∧ c ≤ 102

section Grammar

inductive Whole : Text → Prop
  | zero : Whole [48]
  | digits {d : ℕ} {ds : Text} : Digit d → d ≠ 48 → (∀ c ∈ ds, Digit c) → Whole (d :: ds)

inductive Fraction : Text → Prop
  | absent : Fraction []
  | digits {ds : Text} : ds ≠ [] → (∀ c ∈ ds, Digit c) → Fraction (46 :: ds)

inductive Exponent : Text → Prop
  | absent : Exponent []
  | digits {e : ℕ} {sign ds : Text} : e = 101 ∨ e = 69 → sign = [] ∨ sign = [43] ∨ sign = [45] →
      ds ≠ [] → (∀ c ∈ ds, Digit c) → Exponent (e :: (sign ++ ds))

inductive Unsigned : Text → Prop
  | mk {whole fraction exponent : Text} : Whole whole → Fraction fraction → Exponent exponent →
      Unsigned (whole ++ (fraction ++ exponent))

inductive Number : Text → Prop
  | plain {s : Text} : Unsigned s → Number s
  | minus {s : Text} : Unsigned s → Number (45 :: s)

inductive Chars : Text → Prop
  | nil : Chars []
  | plain {c : ℕ} {s : Text} : 32 ≤ c → c ≤ 0x10FFFF → c ≠ 34 → c ≠ 92 → Chars s → Chars (c :: s)
  | escape {c : ℕ} {s : Text} : c ∈ [34, 92, 47, 98, 102, 110, 114, 116] → Chars s →
    Chars (92 :: c :: s)
  | code {a b c d : ℕ} {s : Text} : HexDigit a → HexDigit b → HexDigit c → HexDigit d → Chars s →
      Chars (92 :: 117 :: a :: b :: c :: d :: s)

inductive Quoted : Text → Prop
  | mk {s : Text} : Chars s → Quoted (34 :: (s ++ [34]))

inductive Part
  | value
  | elements
  | members

inductive Json : Part → Text → Prop
  | null : Json .value [110, 117, 108, 108]
  | true : Json .value [116, 114, 117, 101]
  | false : Json .value [102, 97, 108, 115, 101]
  | number {s : Text} : Number s → Json .value s
  | string {s : Text} : Quoted s → Json .value s
  | emptyArray {a : Text} : Blank a → Json .value (91 :: (a ++ [93]))
  | array {s : Text} : Json .elements s → Json .value (91 :: (s ++ [93]))
  | emptyObject {a : Text} : Blank a → Json .value (123 :: (a ++ [125]))
  | object {s : Text} : Json .members s → Json .value (123 :: (s ++ [125]))
  | element {a v b : Text} : Blank a → Json .value v → Blank b → Json .elements (a ++ (v ++ b))
  | elements {a v b s : Text} : Blank a → Json .value v → Blank b → Json .elements s →
      Json .elements (a ++ (v ++ (b ++ 44 :: s)))
  | member {a k b c v d : Text} : Blank a → Quoted k → Blank b → Blank c → Json .value v → Blank d →
      Json .members (a ++ (k ++ (b ++ 58 :: (c ++ (v ++ d)))))
  | members {a k b c v d s : Text} : Blank a → Quoted k → Blank b → Blank c →
    Json .value v → Blank d →
      Json .members s → Json .members (a ++ (k ++ (b ++ 58 :: (c ++ (v ++ (d ++ 44 :: s))))))

inductive JsonText : Text → Prop
  | mk {a v b : Text} : Blank a → Json .value v → Blank b → JsonText (a ++ (v ++ b))

theorem blank_nil : Blank [] := by simp [Blank]

theorem Blank.append {a b : Text} (h : Blank a) (h' : Blank b) : Blank (a ++ b) :=
  List.forall_mem_append.mpr ⟨h, h'⟩

theorem Chars.append {s t : Text} (h : Chars s) (h' : Chars t) : Chars (s ++ t) := by
  induction h with
  | nil => exact h'
  | plain hlow hhigh hquote hslash _ ih => exact .plain hlow hhigh hquote hslash ih
  | escape hc _ ih => exact .escape hc ih
  | code ha hb hc hd _ ih => exact .code ha hb hc hd ih

theorem Json.elements_blank {a s : Text} (ha : Blank a) (h : Json .elements s) :
    Json .elements (a ++ s) := by
  cases h with
  | element h hv hb => simpa using Json.element (ha.append h) hv hb
  | elements h hv hb hs => simpa using Json.elements (ha.append h) hv hb hs

theorem Json.members_blank {a s : Text} (ha : Blank a) (h : Json .members s) :
    Json .members (a ++ s) := by
  cases h with
  | member h hk hb hc hv hd => simpa using Json.member (ha.append h) hk hb hc hv hd
  | members h hk hb hc hv hd hs => simpa using Json.members (ha.append h) hk hb hc hv hd hs

theorem Json.text {v : Text} (h : Json .value v) : JsonText v := by
  simpa using JsonText.mk blank_nil h blank_nil

end Grammar

section Quotes

inductive Mode
  | plain
  | quoted
  | escaped

/-- What a text says outside its strings. -/
def unquoted : Mode → Text → Text
  | _, [] => []
  | .plain, c :: s => if c = 34 then unquoted .quoted s else c :: unquoted .plain s
  | .quoted, c :: s =>
    if c = 34 then unquoted .plain s
    else if c = 92 then unquoted .escaped s
    else unquoted .quoted s
  | .escaped, _ :: s => unquoted .quoted s

def Says (s out : Text) : Prop := ∀ t, unquoted .plain (s ++ t) = out ++ unquoted .plain t

variable {s t out out' : Text}

theorem says_nil : Says [] [] := fun _ ↦ rfl

theorem Says.append (h : Says s out) (h' : Says t out') : Says (s ++ t) (out ++ out') := by
  intro u
  rw [List.append_assoc, h, h', List.append_assoc]

theorem Says.cons (h : Says s out) {c : ℕ} (hc : c ≠ 34) : Says (c :: s) (c :: out) := by
  intro u
  rw [List.cons_append, unquoted, if_neg hc, h, List.cons_append]

theorem says_self (h : 34 ∉ s) : Says s s := by
  induction s with
  | nil => exact says_nil
  | cons c s ih =>
    obtain ⟨hc, hs⟩ := not_or.mp (mt List.mem_cons.mpr h)
    exact (ih hs).cons (Ne.symm hc)

theorem Says.unquoted (h : Says s out) : unquoted .plain s = out := by
  simpa [Rfc8259.unquoted] using h []

theorem unquoted_char {c : ℕ} (s : Text) (hquote : c ≠ 34) (hslash : c ≠ 92) :
    unquoted .quoted (c :: s) = unquoted .quoted s := by
  rw [unquoted, if_neg hquote, if_neg hslash]

theorem HexDigit.plain {c : ℕ} (h : HexDigit c) : c ≠ 34 ∧ c ≠ 92 := by
  unfold HexDigit Digit at h
  omega

theorem Chars.unquoted (h : Chars s) (t : Text) :
    unquoted .quoted (s ++ t) = unquoted .quoted t := by
  induction h with
  | nil => rfl
  | plain _ _ hquote hslash _ ih => rw [List.cons_append, unquoted_char _ hquote hslash, ih]
  | escape _ _ ih => exact ih
  | code ha hb hc hd _ ih =>
    have hcode {c : ℕ} (s : Text) (h : HexDigit c) := unquoted_char s h.plain.1 h.plain.2
    exact ((hcode _ ha).trans ((hcode _ hb).trans ((hcode _ hc).trans (hcode _ hd)))).trans ih

theorem Quoted.says (h : Quoted s) : Says s [] := by
  cases h with
  | mk h =>
    intro t
    rw [List.cons_append, unquoted, if_pos rfl, List.append_assoc, h.unquoted]
    exact if_pos rfl

def Sober (s : Text) : Prop := ∃ out, Says s out ∧ ∀ c ∈ out, c ≠ 78 ∧ c ≠ 73

theorem Sober.append (h : Sober s) (h' : Sober t) : Sober (s ++ t) := by
  obtain ⟨out, hs, hout⟩ := h
  obtain ⟨out', hs', hout'⟩ := h'
  refine ⟨out ++ out', hs.append hs', fun c hc ↦ ?_⟩
  rcases List.mem_append.mp hc with hc | hc
  · exact hout c hc
  · exact hout' c hc

theorem sober_self (h : ∀ c ∈ s, c ≠ 34 ∧ c ≠ 78 ∧ c ≠ 73) : Sober s :=
  ⟨s, says_self fun hs ↦ (h 34 hs).1 rfl, fun c hc ↦ (h c hc).2⟩

theorem Sober.cons (h : Sober s) {c : ℕ} (hc : c ≠ 34 ∧ c ≠ 78 ∧ c ≠ 73) : Sober (c :: s) :=
  (sober_self (s := [c]) (by simpa using hc)).append h

theorem Blank.sober (h : Blank s) : Sober s := by
  apply sober_self
  intro c hc
  rcases h c hc with rfl | rfl | rfl | rfl <;> decide

theorem Quoted.sober (h : Quoted s) : Sober s := ⟨[], h.says, by simp⟩

theorem digits_sober (h : ∀ c ∈ s, Digit c) : Sober s := by
  apply sober_self
  intro c hc
  have hdigit := h c hc
  unfold Digit at hdigit
  omega

theorem Unsigned.sober (h : Unsigned s) : Sober s := by
  cases h with
  | mk hwhole hfraction hexponent =>
    refine Sober.append ?_ (Sober.append ?_ ?_)
    · cases hwhole with
      | zero => exact sober_self (by decide)
      | digits hd _ hds => exact digits_sober (List.forall_mem_cons.mpr ⟨hd, hds⟩)
    · cases hfraction with
      | absent => exact sober_self (by decide)
      | digits _ hds => exact (digits_sober hds).cons (by decide)
    · cases hexponent with
      | absent => exact sober_self (by decide)
      | digits he hsign _ hds =>
        refine ((sober_self ?_).append (digits_sober hds)).cons ?_
        · rcases hsign with rfl | rfl | rfl <;> decide
        · rcases he with rfl | rfl <;> decide

theorem Number.sober (h : Number s) : Sober s := by
  cases h with
  | plain h => exact h.sober
  | minus h => exact h.sober.cons (by decide)

theorem Json.sober {p : Part} (h : Json p s) : Sober s := by
  have hclose (c : ℕ) (hc : c ≠ 34 ∧ c ≠ 78 ∧ c ≠ 73) : Sober [c] := sober_self (by simpa using hc)
  induction h with
  | null | true | false => exact sober_self (by decide)
  | number h => exact h.sober
  | string h => exact h.sober
  | emptyArray h | emptyObject h => exact (h.sober.append (hclose _ (by decide))).cons (by decide)
  | array _ ih | object _ ih => exact (ih.append (hclose _ (by decide))).cons (by decide)
  | element ha _ hb ih => exact ha.sober.append (ih.append hb.sober)
  | elements ha _ hb _ ih ih' =>
    exact ha.sober.append (ih.append (hb.sober.append (ih'.cons (by decide))))
  | member ha hk hb hc _ hd ih =>
    have hvalue := (hc.sober.append (ih.append hd.sober)).cons (c := 58) (by decide)
    exact ha.sober.append (hk.sober.append (hb.sober.append hvalue))
  | members ha hk hb hc _ hd _ ih ih' =>
    have hvalue :=
      (hc.sober.append (ih.append (hd.sober.append (ih'.cons (c := 44) (by decide))))).cons
        (c := 58) (by decide)
    exact ha.sober.append (hk.sober.append (hb.sober.append hvalue))

theorem JsonText.sober (h : JsonText s) : Sober s := by
  cases h with
  | mk ha hv hb => exact ha.sober.append (hv.sober.append hb.sober)

/-- The text closes its strings, and under `P` one of the two letters stands outside them. -/
def Shouts (s : Text) (P : Prop) : Prop := ∃ out, Says s out ∧ (P → 78 ∈ out ∨ 73 ∈ out)

variable {P Q : Prop}

theorem Sober.shouts (h : Sober s) : Shouts s False := by
  obtain ⟨out, hs, -⟩ := h
  exact ⟨out, hs, False.elim⟩

theorem Shouts.mono (h : Shouts s P) (hP : Q → P) : Shouts s Q := by
  obtain ⟨out, hs, hout⟩ := h
  exact ⟨out, hs, fun hQ ↦ hout (hP hQ)⟩

theorem Shouts.append (h : Shouts s P) (h' : Shouts t Q) : Shouts (s ++ t) (P ∨ Q) := by
  obtain ⟨out, hs, hout⟩ := h
  obtain ⟨out', ht, hout'⟩ := h'
  refine ⟨out ++ out', hs.append ht, ?_⟩
  rintro (hP | hQ)
  · exact (hout hP).imp (List.mem_append_left _) (List.mem_append_left _)
  · exact (hout' hQ).imp (List.mem_append_right _) (List.mem_append_right _)

theorem Sober.append_shouts (h : Sober s) (h' : Shouts t P) : Shouts (s ++ t) P :=
  (h.shouts.append h').mono .inr

theorem Shouts.append_sober (h : Shouts s P) (h' : Sober t) : Shouts (s ++ t) P :=
  (h.append h'.shouts).mono .inl

theorem Shouts.not_jsonText (h : Shouts s P) (hs : JsonText s) : ¬P := by
  intro hP
  obtain ⟨out, hsays, hout⟩ := h
  obtain ⟨out', hsays', hsober⟩ := hs.sober
  obtain rfl : out = out' := hsays.unquoted.symm.trans hsays'.unquoted
  rcases hout hP with hc | hc
  · exact (hsober _ hc).1 rfl
  · exact (hsober _ hc).2 rfl

end Quotes

end OpusFleet.Library.Rfc8259
