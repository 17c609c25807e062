import OpusFleet.Python.Numerals
import OpusFleet.Python.Strings

namespace OpusFleet.Python

open Library Rfc8259

namespace Json

mutual

/-- A value that `json.loads` can give, with `limit` more containers around it at most. -/
def Loadable (limit : ℕ) : Value → Prop
  | .int i => (decimal i.natAbs).length ≤ maxStrDigits
  | .float f => f.Sound
  | .str s => Unicode s
  | .list xs => 0 < limit ∧ LoadableList (limit - 1) xs
  | .dict es => 0 < limit ∧ (es.map Prod.fst).Nodup ∧ LoadableDict (limit - 1) es
  | _ => True

def LoadableList (limit : ℕ) : List Value → Prop
  | [] => True
  | v :: vs => Loadable limit v ∧ LoadableList limit vs

def LoadableDict (limit : ℕ) : List (Str × Value) → Prop
  | [] => True
  | (k, v) :: es => Unicode k ∧ Loadable limit v ∧ LoadableDict limit es

end

mutual

theorem Loadable.writable {limit : ℕ} {v : Value} (h : Loadable limit v) : Writable limit v := by
  cases v with
  | none | bool | float | str => trivial
  | int i => exact h
  | list xs => exact ⟨h.1, LoadableList.writable h.2⟩
  | dict es => exact ⟨h.1, LoadableDict.writable h.2.2⟩

theorem LoadableList.writable {limit : ℕ} {xs : List Value} (h : LoadableList limit xs) :
    WritableList limit xs := by
  match xs with
  | [] => trivial
  | v :: vs => exact ⟨Loadable.writable h.1, LoadableList.writable h.2⟩

theorem LoadableDict.writable {limit : ℕ} {es : List (Str × Value)} (h : LoadableDict limit es) :
    WritableDict limit es := by
  match es with
  | [] => trivial
  | (k, v) :: es => exact ⟨Loadable.writable h.2.1, LoadableDict.writable h.2.2⟩

end

mutual

theorem Loadable.mono {limit limit' : ℕ} (hle : limit ≤ limit') {v : Value} (h : Loadable limit v) :
    Loadable limit' v := by
  cases v with
  | none | bool | int | float | str => exact h
  | list xs => exact ⟨h.1.trans_le hle, LoadableList.mono (Nat.sub_le_sub_right hle 1) h.2⟩
  | dict es => exact ⟨h.1.trans_le hle, h.2.1, LoadableDict.mono (Nat.sub_le_sub_right hle 1) h.2.2⟩

theorem LoadableList.mono {limit limit' : ℕ} (hle : limit ≤ limit') {xs : List Value}
    (h : LoadableList limit xs) :
    LoadableList limit' xs := by
  match xs with
  | [] => trivial
  | v :: vs => exact ⟨Loadable.mono hle h.1, LoadableList.mono hle h.2⟩

theorem LoadableDict.mono {limit limit' : ℕ} (hle : limit ≤ limit') {es : List (Str × Value)}
    (h : LoadableDict limit es) : LoadableDict limit' es := by
  match es with
  | [] => trivial
  | (k, v) :: es => exact ⟨h.1, Loadable.mono hle h.2.1, LoadableDict.mono hle h.2.2⟩

end

mutual

def tokens : Value → List Token
  | .str s => [.string s]
  | .list xs => .openList :: (tokensList xs ++ [.closeList])
  | .dict es => .openDict :: (tokensDict es ++ [.closeDict])
  | v => [.scalar v]

def tokensList : List Value → List Token
  | [] => []
  | [v] => tokens v
  | v :: w :: vs => tokens v ++ .comma :: tokensList (w :: vs)

def tokensDict : List (Str × Value) → List Token
  | [] => []
  | [(k, v)] => .string k :: .colon :: tokens v
  | (k, v) :: e :: es => .string k :: .colon :: (tokens v ++ .comma :: tokensDict (e :: es))

end

section Tokenize

variable {a b rest : Str}

theorem tokenize_blank (ha : Blank a) (s : Str) : tokenize (a ++ s) = tokenize s := by
  have hdrop : (a ++ s).dropWhile isBlank = s.dropWhile isBlank := by
    refine List.dropWhile_append_of_pos fun c hc ↦ ?_
    rcases ha c hc with rfl | rfl | rfl | rfl <;> rfl
  rw [tokenize, tokenize, hdrop]

theorem tokenize_token {c : ℕ} {t : Token} {s s' : Str} (hc : isBlank c = false)
    (ht : scanToken c s = (t, s')) :
    tokenize (c :: s) = t :: tokenize s' :=
  tokenize_cons (by simp [hc]) ht

theorem tokenize_quote {s : Str} (h : Unicode s) (rest : Str) :
    tokenize (quote s ++ rest) = .string s :: tokenize rest := by
  have hscan := scanToken_quote h rest
  rw [quote, List.cons_append, List.append_assoc]
  exact tokenize_token rfl hscan

theorem scanToken_scanNumber {c : ℕ} {s : Str} {v : Value} (hc : c = 45 ∨ Digit c)
    (hinfinity : after "-Infinity" (c :: s) = none)
    (h : scanNumber (c == 45) (if c = 45 then s else c :: s) = some (v, rest)) :
    scanToken c s = (.scalar v, rest) := by
  have hword (word : String) {w : ℕ} {ws : Str} (hword : lit word = w :: ws) (hw : 57 < w) :
      after word (c :: s) = none := by
    have hne : w ≠ c := by
      unfold Digit at hc
      omega
    rw [after, hword, if_neg]
    simp [hne]
  unfold scanToken
  split
  iterate 7 exact absurd hc (by decide)
  · simp only [hword "null" rfl (by decide), hword "true" rfl (by decide),
      hword "false" rfl (by decide),
      hword "NaN" rfl (by decide), hword "Infinity" rfl (by decide), hinfinity, h]

theorem tokenize_number {d : ℕ} {s : Str} {v : Value} (hd : Digit d) (negative : Bool)
    (h : scanNumber negative (d :: s) = some (v, rest)) :
    tokenize (if negative then 45 :: d :: s else d :: s) = .scalar v :: tokenize rest := by
  have hne {w : ℕ} (hw : ¬Digit w) : w ≠ d := fun h ↦ hw (h ▸ hd)
  cases negative with
  | true =>
    have hinfinity : after "-Infinity" (45 :: d :: s) = none := by
      have hword : lit "-Infinity" = 45 :: 73 :: lit "nfinity" := rfl
      rw [after, hword, if_neg]
      simp [hne (w := 73) (by decide)]
    exact tokenize_token rfl (scanToken_scanNumber (.inl rfl) hinfinity h)
  | false =>
    have hminus := hne (w := 45) (by decide)
    have hblank : isBlank d = false := by
      unfold Digit at hd
      simp [isBlank]
      omega
    have hinfinity : after "-Infinity" (d :: s) = none := by
      have hword : lit "-Infinity" = 45 :: 73 :: lit "nfinity" := rfl
      rw [after, hword, if_neg]
      simp [hminus]
    have hscan : scanNumber (d == 45) (if d = 45 then s else d :: s) = some (v, rest) := by
      rw [if_neg hminus.symm, beq_false_of_ne hminus.symm]
      exact h
    exact tokenize_token hblank (scanToken_scanNumber (.inr hd) hinfinity hscan)

theorem tokenize_decimalInt {i : ℤ} (hlen : (decimal i.natAbs).length ≤ maxStrDigits)
    (h : Follows rest) :
    tokenize (decimalInt i ++ rest) = .scalar (.int i) :: tokenize rest := by
  obtain ⟨d, ds, hdecimal, hd⟩ : ∃ d ds, decimal i.natAbs = d :: ds ∧ Digit d := by
    obtain ⟨d, ds, hdecimal⟩ := List.exists_cons_of_ne_nil (decimal_ne_nil i.natAbs)
    exact ⟨d, ds, hdecimal, decimal_digits (hdecimal ▸ List.mem_cons_self)⟩
  have hscan := scanNumber_decimal (i < 0) hlen h
  have hvalue : (if decide (i < 0) then -(i.natAbs : ℤ) else i.natAbs) = i := by
    simp only [decide_eq_true_eq]
    split <;> omega
  rw [hvalue] at hscan
  have htokens := tokenize_number hd (i < 0) (hdecimal ▸ hscan)
  simp only [decide_eq_true_eq] at htokens
  rw [← htokens, decimalInt, hdecimal]
  split <;> rfl

theorem tokenize_reprPos {q : ℚ} (hq : 0 < q) (hs : (PyFloat.finite q).Sound) (negative : Bool)
    (h : Follows rest) :
    tokenize (if negative then 45 :: (reprPos q ++ rest) else reprPos q ++ rest) =
      .scalar (.float (.finite (if negative then -q else q))) :: tokenize rest := by
  have hscan := scanNumber_reprPos hq hs negative h
  obtain ⟨d, s, hrepr, hd⟩ : ∃ d s, reprPos q = d :: s ∧ Digit d := by
    have hunsigned := reprPos_unsigned hq
    generalize reprPos q = text at hunsigned
    cases hunsigned with
    | mk hwhole _ _ =>
      cases hwhole with
      | zero => exact ⟨48, _, rfl, by decide⟩
      | digits hd _ _ => exact ⟨_, _, rfl, hd⟩
  rw [hrepr] at hscan ⊢
  exact tokenize_number hd negative hscan

theorem tokenize_floatStr {f : PyFloat} (hf : f.Sound) (h : Follows rest) :
    tokenize (floatStr f ++ rest) = .scalar (.float f) :: tokenize rest := by
  have hzero (negative : Bool) : scanNumber negative (48 :: 46 :: 48 :: rest) =
      some (.float (if negative then .negZero else .finite 0), rest) :=
    scanNumber_fraction negative .zero (List.cons_ne_nil 48 []) (by decide) h
  cases f with
  | finite q =>
    rw [floatStr]
    split
    · next hq => exact hq ▸ tokenize_number (by decide) false (hzero false)
    · next hne =>
      split
      · next hneg =>
        have hs : (PyFloat.finite (-q)).Sound := by
          rw [PyFloat.Sound, abs_neg]
          exact hf
        simpa using tokenize_reprPos (neg_pos.mpr hneg) hs true h
      · next hpos =>
          exact tokenize_reprPos (lt_of_le_of_ne (not_lt.mp hpos) (Ne.symm hne)) hf false h
  | negZero => exact tokenize_number (by decide) true (hzero true)
  | inf negative =>
    cases negative with
    | false => exact tokenize_token rfl rfl
    | true => exact tokenize_token rfl rfl
  | nan => exact tokenize_token rfl rfl

theorem follows_nil : Follows [] := by simp [Follows]

theorem follows_cons {c : ℕ} (h : c = 44 ∨ c = 93 ∨ c = 125) (s : Str) : Follows (c :: s) := by
  intro d hd
  obtain rfl := Option.some.inj hd
  exact h

mutual

theorem tokenize_dumps (ha : Blank a) (hb : Blank b) {limit : ℕ} (v : Value)
    (hv : Loadable limit v) (rest : Str)
    (h : Follows rest) :
    tokenize (dumps (44 :: a) (58 :: b) v ++ rest) = tokens v ++ tokenize rest := by
  cases v with
  | none => exact tokenize_token rfl rfl
  | bool b => cases b with
    | false => exact tokenize_token rfl rfl
    | true => exact tokenize_token rfl rfl
  | int i => exact tokenize_decimalInt hv h
  | float f => exact tokenize_floatStr hv h
  | str s => exact tokenize_quote hv rest
  | list xs =>
    have hxs := tokenize_dumpsList ha hb xs hv.2 (93 :: rest) (follows_cons (by decide) _)
    rw [tokenize_token (c := 93) (s := rest) rfl rfl] at hxs
    have hopen : tokenize (dumps (44 :: a) (58 :: b) (.list xs) ++ rest) =
        .openList :: tokenize (dumpsList (44 :: a) (58 :: b) xs ++ 93 :: rest) := by
      rw [dumps, List.cons_append, List.append_assoc]
      exact tokenize_token rfl rfl
    rw [hopen, hxs, tokens, List.cons_append, List.append_assoc]
    rfl
  | dict es =>
    have hes := tokenize_dumpsDict ha hb es hv.2.2 (125 :: rest) (follows_cons (by decide) _)
    rw [tokenize_token (c := 125) (s := rest) rfl rfl] at hes
    have hopen : tokenize (dumps (44 :: a) (58 :: b) (.dict es) ++ rest) =
        .openDict :: tokenize (dumpsDict (44 :: a) (58 :: b) es ++ 125 :: rest) := by
      rw [dumps, List.cons_append, List.append_assoc]
      exact tokenize_token rfl rfl
    rw [hopen, hes, tokens, List.cons_append, List.append_assoc]
    rfl

theorem tokenize_dumpsList (ha : Blank a) (hb : Blank b) {limit : ℕ} (xs : List Value)
    (hxs : LoadableList limit xs) (rest : Str) (h : Follows rest) :
    tokenize (dumpsList (44 :: a) (58 :: b) xs ++ rest) = tokensList xs ++ tokenize rest := by
  match xs with
  | [] => rfl
  | [v] => rw [dumpsList, tokensList, tokenize_dumps ha hb v hxs.1 rest h]
  | v :: w :: vs =>
    have hvs := tokenize_dumpsList ha hb (w :: vs) hxs.2 rest h
    have hv := tokenize_dumps ha hb v hxs.1
      (44 :: (a ++ (dumpsList (44 :: a) (58 :: b) (w :: vs) ++ rest)))
        (follows_cons (by decide) _)
    rw [tokenize_token (c := 44) rfl rfl, tokenize_blank ha, hvs] at hv
    rw [dumpsList, tokensList, List.append_assoc, List.append_assoc, List.append_assoc]
    exact hv

theorem tokenize_dumpsDict (ha : Blank a) (hb : Blank b) {limit : ℕ} (es : List (Str × Value))
    (hes : LoadableDict limit es) (rest : Str) (h : Follows rest) :
    tokenize (dumpsDict (44 :: a) (58 :: b) es ++ rest) = tokensDict es ++ tokenize rest := by
  match es with
  | [] => rfl
  | [(k, v)] =>
    have hv := tokenize_dumps ha hb v hes.2.1 rest h
    rw [dumpsDict, tokensDict, List.append_assoc, List.append_assoc, tokenize_quote hes.1,
      List.cons_append, tokenize_token (c := 58) rfl rfl, tokenize_blank hb, hv]
    rfl
  | (k, v) :: e :: es =>
    have hrest := tokenize_dumpsDict ha hb (e :: es) hes.2.2 rest h
    have hv := tokenize_dumps ha hb v hes.2.1
      (44 :: (a ++ (dumpsDict (44 :: a) (58 :: b) (e :: es) ++ rest)))
        (follows_cons (by decide) _)
    rw [tokenize_token (c := 44) rfl rfl, tokenize_blank ha, hrest] at hv
    rw [dumpsDict, tokensDict]
    simp only [List.append_assoc, List.cons_append] at hv ⊢
    rw [tokenize_quote hes.1, tokenize_token (c := 58) rfl rfl, tokenize_blank hb, hv]

end

end Tokenize

section Decode

variable {limit : ℕ}

theorem set_fresh {es : List (Str × Value)} {k : Str} (h : k ∉ es.map Prod.fst) (v : Value) :
    Assoc.set es k v = es ++ [(k, v)] := by
  induction es with
  | nil => rfl
  | cons e es ih =>
    obtain ⟨hk, hes⟩ := not_or.mp (mt List.mem_cons.mpr h)
    rw [Assoc.set_cons, if_neg (Ne.symm hk), ih hes, List.cons_append]

mutual

theorem decodeTokens_value (v : Value) (stack : List Frame) (hv : Loadable (limit - stack.length) v)
    (ts : List Token) {want : Want} (hwant : want = .value ∨ want = .valueOrClose) :
    decodeTokens limit (tokens v ++ ts) want stack =
      decodeTokens limit ts (deliver v stack).1 (deliver v stack).2 := by
  cases v with
  | none | bool | int | float | str => rcases hwant with rfl | rfl <;> rfl
  | list xs =>
    have hroom : stack.length < limit := by
      have hpos := hv.1
      omega
    have hopen : decodeTokens limit (tokens (.list xs) ++ ts) want stack =
        decodeTokens limit (tokensList xs ++ .closeList :: ts) .valueOrClose
          (.list [] :: stack) := by
      rw [tokens, List.cons_append, List.append_assoc]
      rcases hwant with rfl | rfl <;> exact if_pos hroom
    rw [hopen]
    cases xs with
    | nil => rfl
    | cons x xs =>
      have hxs : LoadableList (limit - (stack.length + 1)) (x :: xs) := by
        rw [Nat.sub_add_eq]
        exact hv.2
      exact decodeTokens_list (x :: xs) (List.cons_ne_nil _ _) [] stack hxs ts (.inr rfl)
  | dict es =>
    have hroom : stack.length < limit := by
      have hpos := hv.1
      omega
    have hopen : decodeTokens limit (tokens (.dict es) ++ ts) want stack =
        decodeTokens limit (tokensDict es ++ .closeDict :: ts) .keyOrClose
          (.dict [] [] :: stack) := by
      rw [tokens, List.cons_append, List.append_assoc]
      rcases hwant with rfl | rfl <;> exact if_pos hroom
    rw [hopen]
    cases es with
    | nil => rfl
    | cons e es =>
      have hes : LoadableDict (limit - (stack.length + 1)) (e :: es) := by
        rw [Nat.sub_add_eq]
        exact hv.2.2
      exact decodeTokens_dict (e :: es) (List.cons_ne_nil _ _) [] [] stack hes hv.2.1 ts (.inr rfl)

theorem decodeTokens_list (xs : List Value) (hne : xs ≠ []) (acc : List Value) (stack : List Frame)
    (hxs : LoadableList (limit - (stack.length + 1)) xs) (ts : List Token) {want : Want}
    (hwant : want = .value ∨ want = .valueOrClose) :
    decodeTokens limit (tokensList xs ++ .closeList :: ts) want (.list acc :: stack) =
      decodeTokens limit ts (deliver (.list (acc ++ xs)) stack).1
        (deliver (.list (acc ++ xs)) stack).2 := by
  match xs with
  | [] => exact absurd rfl hne
  | [v] =>
    rw [tokensList, decodeTokens_value v (.list acc :: stack) hxs.1 _ hwant]
    rfl
  | v :: w :: vs =>
    have hrest :=
      decodeTokens_list (w :: vs) (List.cons_ne_nil _ _) (acc ++ [v]) stack hxs.2 ts (.inl rfl)
    rw [tokensList, List.append_assoc, decodeTokens_value v (.list acc :: stack) hxs.1 _ hwant]
    rw [List.append_assoc] at hrest
    exact hrest

theorem decodeTokens_dict (es : List (Str × Value)) (hne : es ≠ [])
    (acc : List (Str × Value)) (key : Str)
    (stack : List Frame) (hes : LoadableDict (limit - (stack.length + 1)) es)
    (hkeys : ((acc ++ es).map Prod.fst).Nodup) (ts : List Token) {want : Want}
    (hwant : want = .key ∨ want = .keyOrClose) :
    decodeTokens limit (tokensDict es ++ .closeDict :: ts) want (.dict acc key :: stack) =
      decodeTokens limit ts (deliver (.dict (acc ++ es)) stack).1
        (deliver (.dict (acc ++ es)) stack).2 := by
  have hkey (k : Str) (us : List Token) :
    decodeTokens limit (.string k :: .colon :: us) want (.dict acc key :: stack) =
      decodeTokens limit us .value (.dict acc k :: stack) := by
    rcases hwant with rfl | rfl <;> rfl
  match es with
  | [] => exact absurd rfl hne
  | [(k, v)] =>
    have hfresh : k ∉ acc.map Prod.fst := by
      rw [List.map_append] at hkeys
      exact fun hk ↦ (List.disjoint_of_nodup_append hkeys) hk (by simp)
    rw [tokensDict, List.cons_append, List.cons_append, hkey,
      decodeTokens_value v (.dict acc k :: stack) hes.2.1 _ (.inl rfl), deliver, set_fresh hfresh]
    rfl
  | (k, v) :: e :: es =>
    have hfresh : k ∉ acc.map Prod.fst := by
      rw [List.map_append] at hkeys
      exact fun hk ↦ (List.disjoint_of_nodup_append hkeys) hk (by simp)
    have hrest :=
      decodeTokens_dict (e :: es) (List.cons_ne_nil _ _) (acc ++ [(k, v)]) k stack hes.2.2
        (by rwa [List.append_assoc]) ts (.inl rfl)
    rw [tokensDict, List.cons_append, List.cons_append, hkey, List.append_assoc,
      decodeTokens_value v (.dict acc k :: stack) hes.2.1 _ (.inl rfl), deliver, set_fresh hfresh]
    rw [List.append_assoc] at hrest
    exact hrest

end

end Decode

section Sound

variable {limit : ℕ}

theorem loadableList_append {xs ys : List Value} :
    LoadableList limit (xs ++ ys) ↔ LoadableList limit xs ∧ LoadableList limit ys := by
  induction xs with
  | nil => simp [LoadableList]
  | cons x xs ih => simp [LoadableList, ih, and_assoc]

theorem loadableDict_set {es : List (Str × Value)} {k : Str} {v : Value}
    (hes : LoadableDict limit es)
    (hk : Unicode k) (hv : Loadable limit v) : LoadableDict limit (Assoc.set es k v) := by
  induction es with
  | nil => exact ⟨hk, hv, trivial⟩
  | cons e es ih =>
    rw [Assoc.set_cons]
    split
    · exact ⟨hk, hv, hes.2.2⟩
    · exact ⟨hes.1, hes.2.1, ih hes.2.2⟩

def Token.Loadable : Token → Prop
  | .scalar v => ∀ limit, Json.Loadable limit v
  | .string s => Unicode s
  | _ => True

theorem after_suffix {word : String} {s rest : Str} (h : after word s = some rest) :
    rest <:+ s := by
  unfold after at h
  split at h
  · exact Option.some.inj h ▸ List.drop_suffix _ _
  · cases h

theorem scanToken_loadable {c : ℕ} {rest : Str} (h : ∀ d ∈ rest, d < 0x110000) :
    (scanToken c rest).1.Loadable := by
  unfold scanToken
  split
  iterate 6 exact trivial
  · split
    · next hs => exact mergeSurrogates_unicode (scanString_points h hs)
    · exact trivial
  · split
    iterate 6 exact fun _ ↦ trivial
    · split
      · next hs =>
        rcases (scanNumber_sound hs).1 with ⟨i, rfl, hi⟩ | ⟨f, rfl, hf⟩
        · exact fun _ ↦ hi
        · exact fun _ ↦ hf
      · exact trivial

theorem scanToken_suffix (c : ℕ) (rest : Str) : (scanToken c rest).2 <:+ c :: rest := by
  unfold scanToken
  split
  iterate 6 exact List.suffix_cons _ _
  · split
    · next hs => exact (scanString_suffix hs).trans (List.suffix_cons _ _)
    · exact List.nil_suffix
  · split
    iterate 6 exact after_suffix ‹_›
    · split
      · next hs =>
        have hsuffix := (scanNumber_sound hs).2
        split at hsuffix
        · exact hsuffix.trans (List.suffix_cons _ _)
        · exact hsuffix
      · exact List.nil_suffix

theorem tokenize_loadable {s : Str} (h : ∀ c ∈ s, c < 0x110000) : ∀ t ∈ tokenize s, t.Loadable := by
  fun_induction tokenize s with
  | case1 => simp
  | case2 s c rest hs ih =>
    have hrest : ∀ d ∈ c :: rest, d < 0x110000 :=
      fun d hd ↦ h d ((hs ▸ List.dropWhile_suffix isBlank).subset hd)
    exact List.forall_mem_cons.mpr ⟨scanToken_loadable (List.forall_mem_cons.mp hrest).2,
      ih fun d hd ↦ hrest d ((scanToken_suffix c rest).subset hd)⟩

def Frame.Loadable (limit : ℕ) : Frame → Prop
  | .list xs => LoadableList limit xs
  | .dict entries key => Unicode key ∧ (entries.map Prod.fst).Nodup ∧ LoadableDict limit entries

def Stacked (limit : ℕ) : List Frame → Prop
  | [] => True
  | f :: stack => stack.length < limit ∧ f.Loadable (limit - (stack.length + 1)) ∧
    Stacked limit stack

def Want.Loadable (limit : ℕ) : Want → Prop
  | .finish v => Json.Loadable limit v
  | _ => True

theorem deliver_loadable {v : Value} {stack : List Frame} (hv : Loadable (limit - stack.length) v)
    (h : Stacked limit stack) :
    (deliver v stack).1.Loadable limit ∧ Stacked limit (deliver v stack).2 := by
  cases stack with
  | nil => exact ⟨hv, h⟩
  | cons f stack =>
    obtain ⟨hroom, hf, hstack⟩ := h
    cases f with
    | list xs => exact ⟨trivial, hroom, loadableList_append.mpr ⟨hf, hv, trivial⟩, hstack⟩
    | dict entries key =>
      obtain ⟨hkey, hkeys, hentries⟩ := hf
      exact ⟨trivial, hroom, ⟨hkey, Dict.nodup_set ⟨entries, hkeys⟩ key v,
        loadableDict_set hentries hkey hv⟩,
        hstack⟩

theorem unicode_nil : Unicode [] := ⟨List.forall_mem_nil _, List.isChain_nil⟩

theorem decodeTokens_loadable {ts : List Token} {want : Want} {stack : List Frame} {v : Value}
    (hts : ∀ t ∈ ts, t.Loadable) (hwant : want.Loadable limit) (hstack : Stacked limit stack)
    (h : decodeTokens limit ts want stack = .ok v) : Loadable limit v := by
  fun_induction decodeTokens limit ts want stack with
  | case1 => exact Except.ok.inj h ▸ hwant
  | case2 => cases h
  | case3 ts stack u ih | case4 ts stack u ih =>
    obtain ⟨hu, hrest⟩ := List.forall_mem_cons.mp hts
    obtain ⟨hwant', hstack'⟩ := deliver_loadable (hu _) hstack
    exact ih hrest hwant' hstack' h
  | case5 ts stack s ih | case6 ts stack s ih =>
    obtain ⟨hs, hrest⟩ := List.forall_mem_cons.mp hts
    obtain ⟨hwant', hstack'⟩ := deliver_loadable (v := .str s) hs hstack
    exact ih hrest hwant' hstack' h
  | case7 ts stack hroom ih | case9 ts stack hroom ih =>
    rw [if_pos hroom] at h
    exact ih (List.forall_mem_cons.mp hts).2 trivial ⟨hroom, trivial, hstack⟩ h
  | case11 ts stack hroom ih | case13 ts stack hroom ih =>
    rw [if_pos hroom] at h
    exact ih (List.forall_mem_cons.mp hts).2 trivial ⟨hroom,
      ⟨unicode_nil, List.nodup_nil, trivial⟩, hstack⟩ h
  | case8 ts stack hroom | case10 ts stack hroom | case12 ts stack hroom | case14 ts stack hroom =>
    rw [if_neg hroom] at h
    cases h
  | case15 ts xs outer ih | case16 ts xs outer ih =>
    obtain ⟨hroom, hxs, houter⟩ := hstack
    have hlist : Loadable (limit - outer.length) (.list xs) :=
      ⟨Nat.sub_pos_of_lt hroom, by rwa [← Nat.sub_add_eq]⟩
    obtain ⟨hwant', hstack'⟩ := deliver_loadable hlist houter
    exact ih (List.forall_mem_cons.mp hts).2 hwant' hstack' h
  | case17 ts entries key outer ih | case18 ts entries key outer ih =>
    obtain ⟨hroom, ⟨-, hkeys, hentries⟩, houter⟩ := hstack
    have hdict : Loadable (limit - outer.length) (.dict entries) :=
      ⟨Nat.sub_pos_of_lt hroom, hkeys, by rwa [← Nat.sub_add_eq]⟩
    obtain ⟨hwant', hstack'⟩ := deliver_loadable hdict houter
    exact ih (List.forall_mem_cons.mp hts).2 hwant' hstack' h
  | case19 ts xs outer ih | case20 ts xs key outer ih | case23 ts stack ih =>
    exact ih (List.forall_mem_cons.mp hts).2 trivial hstack h
  | case21 ts s entries key outer ih | case22 ts s entries key outer ih =>
    obtain ⟨hs, hrest⟩ := List.forall_mem_cons.mp hts
    obtain ⟨hroom, ⟨-, hkeys, hentries⟩, houter⟩ := hstack
    exact ih hrest trivial ⟨hroom, ⟨hs, hkeys, hentries⟩, houter⟩ h
  | case24 => cases h

end Sound

end Json

section RoundTrip

variable {a b : Str} {limit : ℕ}

/-- `json.loads` gives back what `json.dumps` was given. -/
theorem loads_dumps (ha : Blank a) (hb : Blank b) {v : Value} (hv : Json.Loadable limit v) :
    loads limit (dumps (44 :: a) (58 :: b) v) = .ok v := by
  have htokens := Json.tokenize_dumps ha hb v hv [] Json.follows_nil
  have hdecode := Json.decodeTokens_value v [] hv [] (.inl rfl)
  rw [List.append_nil, Json.tokenize_nil, List.append_nil] at htokens
  rw [List.append_nil] at hdecode
  rw [loads, htokens, hdecode]
  rfl

theorem loads_loadable {s : Str} {v : Value} (hs : ∀ c ∈ s, c < 0x110000)
    (h : loads limit s = .ok v) :
    Json.Loadable limit v :=
  Json.decodeTokens_loadable (Json.tokenize_loadable hs)
    (show Json.Want.value.Loadable limit from trivial)
    (show Json.Stacked limit [] from trivial) h

/-- The values that survive `json.dumps` and `json.loads`. -/
theorem loads_dumps_iff (ha : Blank a) (hb : Blank b) (v : Value) :
    loads limit (dumps (44 :: a) (58 :: b) v) = .ok v ↔ Json.Loadable limit v := by
  constructor
  · have hascii {c : ℕ} {s : Str} (hc : c < 128) (hs : Blank s) : Ascii (c :: s) := by
      refine List.forall_mem_cons.mpr ⟨hc, fun d hd ↦ ?_⟩
      rcases hs d hd with rfl | rfl | rfl | rfl <;> decide
    intro h
    have htext := dumps_ascii (hascii (c := 44) (by decide) ha) (hascii (c := 58) (by decide) hb) v
    exact loads_loadable (fun c hc ↦ (htext c hc).trans (by decide)) h
  · exact loads_dumps ha hb

end RoundTrip

end OpusFleet.Python
