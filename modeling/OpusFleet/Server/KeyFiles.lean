import OpusFleet.Library.Runs
import OpusFleet.Server.Provisioning

namespace OpusFleet.Server.Auth

open Python Library

section Content

variable (limit : ℕ)

def readText (content : Bytes) : Except Exc Str :=
  match decode content with
  | none => .error .unicode
  | some text => .ok text

def KeyFile.readable (mtime : Time) (content : Bytes) : KeyFile := ⟨.ok mtime, readText content⟩

def hexKey : Value → Option Bytes
  | .str key => fromHex key
  | _ => none

/-- The id-to-hex map a key file holds, if it holds one. -/
def keyMap (content : Bytes) : Option (List (Str × Bytes)) :=
  match decode content with
  | none => none
  | some text =>
    match loads limit text with
    | .ok (.dict items) => items.mapM fun item ↦ (hexKey item.2).map (item.1, ·)
    | _ => none

/-- No object, or an object whose first value that is no key is not even a string. -/
def Misshapen : Value → Prop
  | .dict items => ∃ item, items.find? (fun item ↦ (hexKey item.2).isNone) = some item ∧
      ∀ key, item.2 ≠ .str key
  | _ => True

/-- JSON nested deeper than the interpreter recurses, or JSON of
another shape than a map of strings. -/
def Fatal (content : Bytes) : Prop :=
  ∃ text, decode content = some text ∧
    (loads limit text = .error .recursion ∨ ∃ v, loads limit text = .ok v ∧ Misshapen v)

def installed (base : Dict Str Bytes) (entries : List (Str × Bytes)) : Dict Str Bytes :=
  entries.foldl (fun keys entry ↦ keys.set entry.1 entry.2) base

def keyOf (base : Dict Str Bytes) (entries : List (Str × Bytes)) (deviceId : Str) : Option Bytes :=
  (Assoc.get entries.reverse deviceId).or (base.get deviceId)

theorem get_installed (base : Dict Str Bytes) (entries : List (Str × Bytes)) (deviceId : Str) :
    (installed base entries).get deviceId = keyOf base entries deviceId := by
  induction entries generalizing base with
  | nil => simp [installed, keyOf]
  | cons e entries ih =>
    rw [installed, List.foldl_cons, ← installed, ih, keyOf, keyOf, List.reverse_cons,
      Assoc.get_append, Option.or_assoc, Dict.get_set]
    congr 1
    by_cases h : deviceId = e.1
    · simp [Assoc.get, h]
    · simp [Assoc.get, h, Ne.symm h]

theorem loadItem_key (keys : Dict Str Bytes) {item : Str × Value} {key : Bytes}
    (h : hexKey item.2 = some key) : loadItem keys item = .ok (keys.set item.1 key) := by
  obtain ⟨dev, v⟩ := item
  cases v with
  | str s =>
    simp only [hexKey] at h
    simp only [loadItem, h]
  | _ => simp [hexKey] at h

theorem loadItem_none (keys : Dict Str Bytes) {item : Str × Value} (h : hexKey item.2 = none) :
    (∃ s, item.2 = .str s) ∧ loadItem keys item = .error .value ∨
      (∀ s, item.2 ≠ .str s) ∧ loadItem keys item = .error .type := by
  obtain ⟨dev, v⟩ := item
  cases v with
  | str s =>
    simp only [hexKey] at h
    exact .inl ⟨⟨s, rfl⟩, by simp only [loadItem, h]⟩
  | _ => exact .inr ⟨fun s hs ↦ Value.noConfusion hs, rfl⟩

theorem misshapen_none {item : Str × Value} (items : List (Str × Value))
    (h : hexKey item.2 = none) :
    Misshapen (.dict (item :: items)) ↔ ∀ s, item.2 ≠ .str s := by
  simp only [Misshapen, List.find?_cons, h, Option.isNone_none, Option.some.injEq, exists_eq_left']

theorem misshapen_some {item : Str × Value} (items : List (Str × Value)) {key : Bytes}
    (h : hexKey item.2 = some key) :
    Misshapen (.dict (item :: items)) ↔ Misshapen (.dict items) := by
  simp only [Misshapen, List.find?_cons, h, Option.isNone_some]

theorem foldlM_loadItem (items : List (Str × Value)) (keys : Dict Str Bytes) :
    (∃ entries, (items.mapM fun item ↦ (hexKey item.2).map (item.1, ·)) = some entries ∧
      items.foldlM loadItem keys = .ok (installed keys entries) ∧ ¬Misshapen (.dict items)) ∨
    ((items.mapM fun item ↦ (hexKey item.2).map (item.1, ·)) = none ∧
      ((Misshapen (.dict items) ∧ items.foldlM loadItem keys = .error .type) ∨
        (¬Misshapen (.dict items) ∧ items.foldlM loadItem keys = .error .value))) := by
  induction items generalizing keys with
  | nil => exact .inl ⟨[], rfl, rfl, by simp [Misshapen]⟩
  | cons item items ih =>
    rw [List.foldlM_cons, List.mapM_cons]
    cases hkey : hexKey item.2 with
    | none =>
      refine .inr ⟨rfl, ?_⟩
      rw [misshapen_none items hkey]
      rcases loadItem_none keys hkey with ⟨⟨s, hs⟩, herr⟩ | ⟨hns, herr⟩
      · exact .inr ⟨fun hns ↦ hns s hs, by rw [herr]; rfl⟩
      · exact .inl ⟨hns, by rw [herr]; rfl⟩
    | some key =>
      rw [loadItem_key keys hkey, misshapen_some items hkey]
      rcases ih (keys.set item.1 key) with ⟨entries, hmap, hfold, hgood⟩ | ⟨hmap, hbad⟩
      · exact .inl ⟨(item.1, key) :: entries, by rw [hmap]; rfl, hfold, hgood⟩
      · exact .inr ⟨by rw [hmap]; rfl, hbad⟩

theorem readText_loadItems (content : Bytes) (keys : Dict Str Bytes) :
    (∃ entries, keyMap limit content = some entries ∧ ¬Fatal limit content ∧
      readText content >>= loadItems limit keys = .ok (installed keys entries)) ∨
    (keyMap limit content = none ∧ ∃ e, (readText content >>= loadItems limit keys) = .error e ∧
      (spoiled e = false ↔ Fatal limit content)) := by
  cases hd : decode content with
  | none =>
    refine .inr ⟨by simp only [keyMap, hd], .unicode, by simp only [readText, hd]; rfl, ?_⟩
    simp [Fatal, hd, spoiled]
  | some text =>
    have hfatal : Fatal limit content ↔
        loads limit text = .error .recursion ∨ ∃ v, loads limit text = .ok v ∧ Misshapen v := by
      simp [Fatal, hd]
    have hread : readText content >>= loadItems limit keys = loadItems limit keys text := by
      simp only [readText, hd]
      rfl
    rw [hfatal, hread]
    cases hl : loads limit text with
    | error e =>
      refine .inr ⟨by simp only [keyMap, hd, hl], ?_⟩
      cases e with
      | value => exact ⟨.value, by simp only [loadItems, hl], by simp [spoiled]⟩
      | recursion => exact ⟨.recursion, by simp only [loadItems, hl], by simp [spoiled]⟩
    | ok v =>
      cases v with
      | dict items =>
        have hitems : loadItems limit keys text = items.foldlM loadItem keys := by
          simp only [loadItems, hl]
        have hmap : keyMap limit content = items.mapM fun item ↦
            (hexKey item.2).map (item.1, ·) := by
          simp only [keyMap, hd, hl]
        simp only [hitems, hmap, reduceCtorEq, false_or, Except.ok.injEq, exists_eq_left']
        rcases foldlM_loadItem items keys with ⟨entries, h₁, h₂, h₃⟩ | ⟨h₁, ⟨h₂, h₃⟩ | ⟨h₂, h₃⟩⟩
        · exact .inl ⟨entries, h₁, h₃, h₂⟩
        · exact .inr ⟨h₁, .type, h₃, by simp [spoiled, h₂]⟩
        · exact .inr ⟨h₁, .value, h₃, by simp [spoiled, h₂]⟩
      | _ =>
        refine .inr ⟨by simp only [keyMap, hd, hl], .attribute, by simp only [loadItems, hl], ?_⟩
        simp [spoiled, Misshapen]

end Content

namespace DeviceRegistry

variable (limit : ℕ) {r : DeviceRegistry} {base : Dict Str Bytes}

def inlineKeys (r : DeviceRegistry) : Except Exc (Dict Str Bytes) :=
  if r.inline = [] then .ok .empty else parseInline r.inline

theorem load_inlineKeys {path inline : Str} {file : Option KeyFile} {r : DeviceRegistry}
    (h : load limit path inline file = (r, .ok ())) :
    r.path = path ∧ r.inline = inline ∧ ∃ base, r.inlineKeys = .ok base := by
  unfold load reload at h
  simp only [inlineKeys]
  split at h
  · simp at h
  next base hbase =>
  suffices hkept : r.path = path ∧ r.inline = inline by
    refine ⟨hkept.1, hkept.2, base, ?_⟩
    rw [hkept.2]
    exact hbase
  split at h
  · obtain ⟨rfl, -⟩ := Prod.mk.inj h
    exact ⟨rfl, rfl⟩
  split at h
  · obtain ⟨rfl, -⟩ := Prod.mk.inj h
    exact ⟨rfl, rfl⟩
  split at h
  all_goals
    obtain ⟨rfl, -⟩ := Prod.mk.inj h
    exact ⟨rfl, rfl⟩

theorem osError_spoiled {e : Exc} (h : osError e = true) : spoiled e = true := by
  cases e <;> simp_all [osError, spoiled]

section Get

variable (file : KeyFile) {mtime : Time}

theorem reload_seen (hbase : r.inlineKeys = .ok base) (hpath : r.path ≠ [])
    (hmtime : file.mtime = .ok mtime) :
    r.reload limit (some file) =
      match file.text >>= loadItems limit base with
      | .error e => ({ r with mtime := some mtime }, if spoiled e then .ok () else .error e)
      | .ok keys => ({ r with mtime := some mtime, keys := keys }, .ok ()) := by
  rw [inlineKeys] at hbase
  cases h : file.text >>= loadItems limit base with
  | error e => simp only [reload, hbase, seen, if_neg hpath, hmtime, h]
  | ok keys => simp only [reload, hbase, seen, if_neg hpath, hmtime, h]

theorem get_same (hmtime : file.mtime = .ok mtime) (hsame : r.mtime = some mtime) (deviceId : Str) :
    r.get limit (some file) deviceId = (r, .ok (r.keys.get deviceId)) := by
  by_cases hpath : r.path = [] <;> simp [get, maybeReload, seen, hpath, hmtime, hsame]

theorem get_new (hbase : r.inlineKeys = .ok base) (hpath : r.path ≠ [])
    (hmtime : file.mtime = .ok mtime) (hnew : r.mtime ≠ some mtime) (deviceId : Str) :
    r.get limit (some file) deviceId =
      match file.text >>= loadItems limit base with
      | .error e => ({ r with mtime := some mtime },
          if spoiled e then .ok (r.keys.get deviceId) else .error e)
      | .ok keys => ({ r with mtime := some mtime, keys := keys }, .ok (keys.get deviceId)) := by
  simp only [get, maybeReload, reload_seen limit file hbase hpath hmtime, seen,
    if_neg hpath, hmtime, if_neg hnew]
  cases file.text >>= loadItems limit base with
  | ok keys => rfl
  | error e =>
    by_cases hs : spoiled e = true
    · simp [hs]
    · have ho : ¬osError e = true := fun h ↦ hs (osError_spoiled h)
      simp [hs, ho]

end Get

theorem get_pathless (hpath : r.path = []) (file : Option KeyFile) (deviceId : Str) :
    r.get limit file deviceId = (r, .ok (r.keys.get deviceId)) := by
  simp [get, maybeReload, seen, hpath]

/-- `get` gives an answer and leaves the old table or the one of the file's content, except where
the file has a new mtime and content that `reload` does not expect. -/
theorem get_survives_iff (r : DeviceRegistry) {base : Dict Str Bytes}
    (hbase : r.inlineKeys = .ok base) (mtime : Time) (content : Bytes) (deviceId : Str) :
    ((∃ key, (r.get limit (some (.readable mtime content)) deviceId).2 = .ok key) ∧
      ((r.get limit (some (.readable mtime content)) deviceId).1.keys = r.keys ∨
        ∃ entries, keyMap limit content = some entries ∧
          (r.get limit (some (.readable mtime content)) deviceId).1.keys =
            installed base entries)) ↔
      ¬(r.path ≠ [] ∧ r.mtime ≠ some mtime ∧ Fatal limit content) := by
  by_cases hpath : r.path = []
  · simp [get_pathless limit hpath, hpath]
  by_cases hsame : r.mtime = some mtime
  · simp [get_same limit (.readable mtime content) rfl hsame, hsame]
  rw [get_new limit (.readable mtime content) hbase hpath rfl hsame, KeyFile.readable]
  rcases readText_loadItems limit content base
    with ⟨entries, hmap, hfatal, hload⟩ | ⟨hmap, e, hload, hfatal⟩
  · rw [hload]
    simp [hmap, hfatal]
  · rw [hload]
    by_cases hs : spoiled e = true
    · have hnot : ¬Fatal limit content := fun h ↦ Bool.noConfusion (hs.symm.trans (hfatal.mpr h))
      simp [hs, hnot]
    · have hyes : Fatal limit content := hfatal.mp (by simpa using hs)
      simp [hs, hyes, hpath, hsame]

theorem keyed_plain :
    keyed (lit "A") = ⟨lit "keys.json", [], Dict.empty.set (lit "A") [17], some 0⟩ :=
  keyed_eq (by decide) (by decide)

theorem keyed_inlineKeys : (keyed (lit "A")).inlineKeys = .ok .empty := by
  rw [keyed_plain]
  rfl

theorem keyed_path : (keyed (lit "A")).path ≠ [] := by
  rw [keyed_plain]
  decide

theorem keyed_mtime : (keyed (lit "A")).mtime ≠ some 1 := by
  rw [keyed_plain]
  decide

theorem load_keyed :
    load 1000 (lit "keys.json") [] (some (keyFile (lit "A"))) = (keyed (lit "A"), .ok ()) := by
  have hitems := loadItems_keyFile (show Json.scanString (lit "A" ++ lit "\":\"11\"\x7d") =
    some (lit "A", lit ":\"11\"\x7d") from by decide) (by decide)
  have hpath : lit "keys.json" ≠ [] := by decide
  apply Prod.ext
  · rfl
  · simp only [load, reload, seen, keyFile, hpath, if_true, if_false, Bind.bind,
      Except.bind, hitems]

theorem get_survives_iff_garbled :
    (∃ key, ((keyed (lit "A")).get 1000 (some (.readable 1 (ascii "x"))) (lit "A")).2 = .ok key) ∧
      (((keyed (lit "A")).get 1000 (some (.readable 1 (ascii "x"))) (lit "A")).1.keys =
        (keyed (lit "A")).keys ∨
        ∃ entries, keyMap 1000 (ascii "x") = some entries ∧
          ((keyed (lit "A")).get 1000 (some (.readable 1 (ascii "x"))) (lit "A")).1.keys =
            installed .empty entries) := by
  apply (get_survives_iff 1000 (keyed (lit "A")) keyed_inlineKeys 1 (ascii "x") (lit "A")).mpr
  intro ⟨_, _, text, hdecode, hbad⟩
  obtain rfl : lit "x" = text := Option.some.inj hdecode
  simp [loads_garbled] at hbad

/-- An edit that leaves a JSON list in the key file raises out of `get`. -/
theorem list_raises :
    load 1000 (lit "keys.json") [] (some (keyFile (lit "A"))) = (keyed (lit "A"), .ok ()) ∧
    ((keyed (lit "A")).get 1000 (some (.readable 1 (ascii "[]"))) (lit "A")).2 =
      .error .attribute := by
  have hload : loads 1000 (lit "[]") = .ok (.list []) := by
    have hopen : Json.scanToken 91 (lit "]") = (.openList, lit "]") := rfl
    have hclose : Json.tokenize (lit "]") = [.closeList] := Json.tokenize_last rfl rfl
    have ht : Json.tokenize (lit "[]") = [.openList, .closeList] := by
      rw [Json.tokenize_cons rfl hopen, hclose]
    rw [loads, ht]
    rfl
  refine ⟨load_keyed, ?_⟩
  rw [get_new 1000 _ keyed_inlineKeys keyed_path rfl keyed_mtime]
  have hitems : (KeyFile.readable 1 (ascii "[]")).text >>= loadItems 1000 .empty =
      .error .attribute := by
    change loadItems 1000 .empty (lit "[]") = _
    simp only [loadItems, hload]
  rw [hitems]
  rfl

section History

abbrev IoFault := {e : Exc // osError e = true}

/-- One look at the key file: the version found there, told by its mtime, and what fails of
`getmtime` and of opening and reading the file. -/
structure Look where
  version : Option Time
  stat : Option IoFault
  read : Option IoFault

variable (versions : Time → Bytes)

def Look.file (look : Look) : Option KeyFile :=
  look.version.map fun mtime ↦
    ⟨match look.stat with
      | some e => .error e.1
      | none => .ok mtime,
    match look.read with
      | some e => .error e.1
      | none => readText (versions mtime)⟩

/-- The registry after a call of `get`, whether or not the call raises. -/
def afterGet (r : DeviceRegistry) (call : Look × Str) : Option DeviceRegistry :=
  some (r.get limit (call.1.file versions) call.2).1

/-- `get` would answer for every version of the file that holds a map as that version says. -/
def Current (r : DeviceRegistry) : Prop :=
  ∀ base mtime entries deviceId, r.inlineKeys = .ok base →
    keyMap limit (versions mtime) = some entries →
    (r.get limit (some (.readable mtime (versions mtime))) deviceId).2 =
    .ok (keyOf base entries deviceId)

/-- The look finds a new mtime, and the file, which holds another map
than the table, cannot be read. -/
def Interrupted (r : DeviceRegistry) (look : Look) : Prop :=
  ∃ base mtime entries deviceId, r.inlineKeys = .ok base ∧ look.version = some mtime ∧
    look.stat = none ∧ look.read ≠ none ∧ r.mtime ≠ some mtime ∧
    keyMap limit (versions mtime) = some entries ∧ r.keys.get deviceId ≠ keyOf base entries deviceId

/-- The table is that of the version whose mtime is remembered. -/
def Synced (base : Dict Str Bytes) (r : DeviceRegistry) : Prop :=
  ∀ mtime entries, r.mtime = some mtime → keyMap limit (versions mtime) = some entries →
    ∀ deviceId, r.keys.get deviceId = keyOf base entries deviceId

theorem current_iff (hbase : r.inlineKeys = .ok base) (hpath : r.path ≠ []) :
    Current limit versions r ↔ Synced limit versions base r := by
  have hget (mtime : Time) (entries : List (Str × Bytes)) (deviceId : Str)
      (hmap : keyMap limit (versions mtime) = some entries) (hnew : r.mtime ≠ some mtime) :
      (r.get limit (some (.readable mtime (versions mtime))) deviceId).2 =
        .ok (keyOf base entries deviceId) := by
    rw [get_new limit (.readable mtime (versions mtime)) hbase hpath rfl hnew, KeyFile.readable]
    rcases readText_loadItems limit (versions mtime) base with ⟨es, hes, -, hload⟩ | ⟨hnone, -⟩
    · obtain rfl := Option.some.inj (hmap.symm.trans hes)
      rw [hload]
      exact congrArg Except.ok (get_installed base entries deviceId)
    · simp [hmap] at hnone
  constructor
  · intro h mtime entries hsame hmap deviceId
    have hkey := h base mtime entries deviceId hbase hmap
    rw [get_same limit (.readable mtime (versions mtime)) rfl hsame] at hkey
    exact Except.ok.inj hkey
  · intro h base' mtime entries deviceId hbase' hmap
    obtain rfl := Except.ok.inj (hbase.symm.trans hbase')
    by_cases hsame : r.mtime = some mtime
    · rw [get_same limit (.readable mtime (versions mtime)) rfl hsame]
      exact congrArg Except.ok (h mtime entries hsame hmap deviceId)
    · exact hget mtime entries deviceId hmap hsame

variable {look : Look} {mtime : Time}

theorem reload_look (hbase : r.inlineKeys = .ok base) (hpath : r.path ≠ [])
    (hversion : look.version = some mtime) (hstat : look.stat = none) :
    ∃ keys, (r.reload limit (look.file versions)).1 = { r with mtime := some mtime, keys := keys } ∧
      (look.read ≠ none → keys = r.keys) ∧
      (look.read = none → ∀ entries, keyMap limit (versions mtime) = some entries →
        keys = installed base entries) := by
  obtain ⟨_, _, read⟩ := look
  obtain rfl := hversion
  obtain rfl := hstat
  cases read with
  | some e =>
    refine ⟨r.keys, ?_, fun _ ↦ rfl, fun h ↦ by cases h⟩
    rw [Look.file, Option.map_some, reload_seen limit _ hbase hpath rfl]
    rfl
  | none =>
    rw [Look.file, Option.map_some, reload_seen limit _ hbase hpath rfl]
    rcases readText_loadItems limit (versions mtime) base
      with ⟨es, hes, -, hload⟩ | ⟨hnone, e, hload, -⟩
    · rw [hload]
      refine ⟨installed base es, rfl, fun h ↦ absurd rfl h, fun _ entries hmap ↦ ?_⟩
      obtain rfl := Option.some.inj (hmap.symm.trans hes)
      rfl
    · rw [hload]
      refine ⟨r.keys, rfl, fun _ ↦ rfl, fun _ entries hmap ↦ ?_⟩
      simp [hmap] at hnone

theorem reload_unseen (hnot : look.version = none ∨ look.stat ≠ none) :
    (r.reload limit (look.file versions)).1.mtime = r.mtime := by
  obtain ⟨version, stat, read⟩ := look
  unfold reload
  cases version with
  | none => split <;> simp [Look.file, seen]
  | some mtime =>
    cases stat with
    | none => simp at hnot
    | some e => split <;> by_cases hpath : r.path = [] <;> simp [Look.file, seen, hpath]

theorem reload_synced_iff (hbase : r.inlineKeys = .ok base) (hpath : r.path ≠ [])
    (hversion : look.version = some mtime) (hstat : look.stat = none)
    (hnew : r.mtime ≠ some mtime) :
    Synced limit versions base (r.reload limit (look.file versions)).1 ↔
      ¬Interrupted limit versions r look := by
  obtain ⟨keys, heq, hfault, hread⟩ := reload_look limit versions hbase hpath hversion hstat
  rw [heq]
  constructor
  · intro h hint
    obtain ⟨base', mtime', entries, deviceId, hbase', hversion', -, hne, -, hmap, hkey⟩ := hint
    obtain rfl := Except.ok.inj (hbase.symm.trans hbase')
    obtain rfl := Option.some.inj (hversion.symm.trans hversion')
    have hsync := h mtime entries rfl hmap deviceId
    rw [← hfault hne] at hkey
    exact hkey hsync
  · intro h mtime' entries hmtime hmap deviceId
    obtain rfl : mtime = mtime' := Option.some.inj hmtime
    by_cases hnone : look.read = none
    · have hkeys := hread hnone entries hmap
      change keys.get deviceId = _
      rw [hkeys, get_installed]
    · by_contra hkey
      change keys.get deviceId ≠ _ at hkey
      rw [hfault hnone] at hkey
      exact h ⟨base, mtime, entries, deviceId, hbase, hversion, hstat, hnone, hnew, hmap, hkey⟩

theorem get_keeps (hnot : ∀ mtime, look.version = some mtime → look.stat = none →
    r.mtime = some mtime)
    (deviceId : Str) : (r.get limit (look.file versions) deviceId).1 = r := by
  obtain ⟨version, stat, read⟩ := look
  by_cases hpath : r.path = []
  · rw [get_pathless limit hpath]
  cases version with
  | none => simp [get, maybeReload, Look.file, seen]
  | some mtime =>
    cases stat with
    | none => rw [Look.file, Option.map_some, get_same limit _ rfl (hnot mtime rfl rfl)]
    | some e => simp [get, maybeReload, Look.file, seen, hpath, e.2]

theorem get_reloads (hpath : r.path ≠ []) (hversion : look.version = some mtime)
    (hstat : look.stat = none) (hnew : r.mtime ≠ some mtime) (deviceId : Str) :
    (r.get limit (look.file versions) deviceId).1 = (r.reload limit (look.file versions)).1 := by
  obtain ⟨_, _, read⟩ := look
  obtain rfl := hversion
  obtain rfl := hstat
  simp only [Look.file, Option.map_some, get, maybeReload, seen, if_neg hpath, if_neg hnew]
  rcases r.reload limit _ with ⟨r', _ | _⟩
  · split <;> simp_all
  · rfl

theorem get_synced_iff (look : Look) (hbase : r.inlineKeys = .ok base) (hpath : r.path ≠ [])
    (hsync : Synced limit versions base r) (deviceId : Str) :
    Synced limit versions base (r.get limit (look.file versions) deviceId).1 ↔
      ¬Interrupted limit versions r look := by
  by_cases hnot : ∀ mtime, look.version = some mtime → look.stat = none → r.mtime = some mtime
  · rw [get_keeps limit versions hnot]
    refine iff_of_true hsync ?_
    intro ⟨_, mtime, _, _, _, hversion, hstat, _, hnew, _⟩
    exact hnew (hnot mtime hversion hstat)
  · push Not at hnot
    obtain ⟨mtime, hversion, hstat, hnew⟩ := hnot
    rw [get_reloads limit versions hpath hversion hstat hnew]
    exact reload_synced_iff limit versions hbase hpath hversion hstat hnew

theorem get_sources (look : Look) (hbase : r.inlineKeys = .ok base) (hpath : r.path ≠ [])
    (deviceId : Str) :
    (r.get limit (look.file versions) deviceId).1.path ≠ [] ∧
      (r.get limit (look.file versions) deviceId).1.inlineKeys = .ok base := by
  by_cases hnot : ∀ mtime, look.version = some mtime → look.stat = none → r.mtime = some mtime
  · rw [get_keeps limit versions hnot]
    exact ⟨hpath, hbase⟩
  · push Not at hnot
    obtain ⟨mtime, hversion, hstat, hnew⟩ := hnot
    obtain ⟨keys, heq, -⟩ := reload_look limit versions hbase hpath hversion hstat
    rw [get_reloads limit versions hpath hversion hstat hnew, heq]
    exact ⟨hpath, hbase⟩

theorem gets_sources {calls : List (Look × Str)} {m : DeviceRegistry}
    (hbase : r.inlineKeys = .ok base)
    (hpath : r.path ≠ []) (hm : Runs.run (afterGet limit versions) r calls = some m) :
    m.path ≠ [] ∧ m.inlineKeys = .ok base := by
  refine Runs.run_induction (I := fun _ m ↦ m.path ≠ [] ∧ m.inlineKeys = .ok base) ⟨hpath, hbase⟩ ?_
    (Runs.throughout_true calls) hm
  intro _ m call m' _ hkept _ hstep
  obtain rfl := Option.some.inj hstep
  exact get_sources limit versions call.1 hkept.2 hkept.1 call.2

/-- Where the registry is in step with the file, it stays so as long as no call is interrupted. -/
theorem gets_synced_iff (hbase : r.inlineKeys = .ok base) (hpath : r.path ≠ [])
    (hsync : Synced limit versions base r) (calls : List (Look × Str)) :
    (∀ before m, before <+: calls → Runs.run (afterGet limit versions) r before = some m →
      Synced limit versions base m) ↔
    Runs.Throughout (afterGet limit versions)
      (fun m call _ ↦ ¬Interrupted limit versions m call.1) r calls := by
  induction calls generalizing r with
  | nil =>
    refine iff_of_true ?_ Runs.throughout_nil
    intro before m hbefore hm
    obtain rfl := List.prefix_nil.mp hbefore
    obtain rfl := Option.some.inj hm
    exact hsync
  | cons call calls ih =>
    obtain ⟨hpath', hbase'⟩ := get_sources limit versions call.1 hbase hpath call.2
    have hcall := get_synced_iff limit versions call.1 hbase hpath hsync call.2
    constructor
    · intro h
      have hsync' := h [call] _ (by simp) rfl
      apply Runs.throughout_cons
      · exact fun _ _ ↦ hcall.mp hsync'
      · intro m hm
        obtain rfl := Option.some.inj hm
        apply (ih hbase' hpath' hsync').mp
        intro before m hbefore hm
        exact h (call :: before) m (List.cons_prefix_cons.mpr ⟨rfl, hbefore⟩) hm
    · intro h before m hbefore hm
      have hfirst := h [] call calls r _ rfl rfl rfl
      cases before with
      | nil =>
        obtain rfl := Option.some.inj hm
        exact hsync
      | cons first before =>
        obtain ⟨rfl, hrest⟩ := List.cons_prefix_cons.mp hbefore
        exact (ih hbase' hpath' (hcall.mpr hfirst)).mpr (h.tail rfl) before m hrest hm

/-- In a run every call would find the keys of the file's current version, whatever failed before,
if and only if neither the construction nor a call was interrupted. -/
theorem keys_current_iff {path inline : Str} {first : Look} {r : DeviceRegistry} (hpath : path ≠ [])
    (hload : load limit path inline (first.file versions) = (r, .ok ()))
    (calls : List (Look × Str)) :
    (∀ before m, before <+: calls → Runs.run (afterGet limit versions) r before = some m →
      Current limit versions m) ↔
    ¬Interrupted limit versions ⟨path, inline, .empty, none⟩ first ∧
      Runs.Throughout (afterGet limit versions)
        (fun m call _ ↦ ¬Interrupted limit versions m call.1) r calls := by
  obtain ⟨hpath', hinline, base, hbase⟩ := load_inlineKeys limit hload
  have hne : r.path ≠ [] := by rwa [hpath']
  have hstart : Synced limit versions base r ↔
      ¬Interrupted limit versions ⟨path, inline, .empty, none⟩ first := by
    have hbase' : (⟨path, inline, .empty, none⟩ : DeviceRegistry).inlineKeys = .ok base := by
      rw [← hbase, inlineKeys, inlineKeys, hinline]
    have hr : r = (reload limit ⟨path, inline, .empty, none⟩ (first.file versions)).1 :=
      (congrArg Prod.fst hload).symm
    by_cases hnot : first.version = none ∨ first.stat ≠ none
    · refine iff_of_true ?_ ?_
      · intro mtime entries hmtime
        rw [hr, reload_unseen limit versions hnot] at hmtime
        cases hmtime
      · intro ⟨_, _, _, _, _, hversion, hstat, _⟩
        rcases hnot with h | h
        · simp [h] at hversion
        · exact h hstat
    · push Not at hnot
      obtain ⟨mtime, hversion⟩ := Option.ne_none_iff_exists'.mp hnot.1
      rw [hr]
      exact reload_synced_iff limit versions hbase' hpath hversion hnot.2 (by simp)
  have hrun {before : List (Look × Str)} {m : DeviceRegistry}
      (hm : Runs.run (afterGet limit versions) r before = some m) :
      Current limit versions m ↔ Synced limit versions base m := by
    obtain ⟨hm₁, hm₂⟩ := gets_sources limit versions hbase hne hm
    exact current_iff limit versions hm₂ hm₁
  rw [← hstart]
  constructor
  · intro h
    have hsync := (hrun (Runs.run_nil _ _)).mp (h [] r List.nil_prefix rfl)
    refine ⟨hsync, (gets_synced_iff limit versions hbase hne hsync calls).mp ?_⟩
    exact fun before m hbefore hm ↦ (hrun hm).mp (h before m hbefore hm)
  · intro ⟨hsync, hcalls⟩ before m hbefore hm
    exact (hrun hm).mpr
      ((gets_synced_iff limit versions hbase hne hsync calls).mpr hcalls before m hbefore hm)

/-- The key of device A is in the file at first and then deleted from it. -/
def revoking (mtime : Time) : Bytes :=
  encode (if mtime = 0 then lit "\x7b\"" ++ lit "A" ++ lit "\":\"11\"\x7d" else lit "\x7b\x7d")

theorem load_revoking : load 1000 (lit "keys.json") [] (Look.file revoking ⟨some 0, none, none⟩) =
    (keyed (lit "A"), .ok ()) := by
  have hfile : Look.file revoking ⟨some 0, none, none⟩ = some (keyFile (lit "A")) := by
    simp only [Look.file, Option.map_some, keyFile, readText, revoking, if_true,
      decode_encode (show Ascii (lit "\x7b\"" ++ lit "A" ++ lit "\":\"11\"\x7d") by decide)]
  rw [hfile, load_keyed]

theorem keys_current_iff_read :
    ∃ r, load 1000 (lit "keys.json") [] (Look.file revoking ⟨some 0, none, none⟩) = (r, .ok ()) ∧
      ∀ before m, before <+: [((⟨some 1, none, none⟩ : Look), lit "A")] →
        Runs.run (afterGet 1000 revoking) r before = some m → Current 1000 revoking m := by
  refine ⟨keyed (lit "A"), load_revoking, ?_⟩
  apply (keys_current_iff 1000 revoking
    (by decide) load_revoking [(⟨some 1, none, none⟩, lit "A")]).mpr
  refine ⟨fun ⟨_, _, _, _, _, _, _, hread, _⟩ ↦ hread rfl, ?_⟩
  apply Runs.throughout_cons
  · exact fun _ _ ⟨_, _, _, _, _, _, _, hread, _⟩ ↦ hread rfl
  · exact fun _ _ ↦ Runs.throughout_nil

/-- The file without the key cannot be opened once, and the deleted key stays in force. -/
theorem revoked_stays :
    load 1000 (lit "keys.json") [] (Look.file revoking ⟨some 0, none, none⟩) =
      (keyed (lit "A"), .ok ()) ∧
    keyMap 1000 (revoking 1) = some [] ∧
    (((keyed (lit "A")).get 1000 (Look.file revoking ⟨some 1, none, some ⟨.connection, rfl⟩⟩)
      (lit "A")).1.get 1000 (Look.file revoking ⟨some 1, none, none⟩) (lit "A")).2 =
        .ok (some [17]) := by
  refine ⟨load_revoking, ?_, ?_⟩
  · have hdecode : decode (revoking 1) = some (lit "\x7b\x7d") := by
      rw [revoking, if_neg one_ne_zero, decode_encode (by decide)]
    have hload : loads 1000 (lit "\x7b\x7d") = .ok (.dict []) :=
      Protocol.DeviceMessage.loads_empty 999
    simp [keyMap, hdecode, hload]
  · have hfails :
      ((keyed (lit "A")).get 1000 (Look.file revoking ⟨some 1, none, some ⟨.connection, rfl⟩⟩)
        (lit "A")).1 = { keyed (lit "A") with mtime := some 1 } := by
      rw [Look.file, Option.map_some, get_new 1000 _ keyed_inlineKeys keyed_path rfl keyed_mtime]
      rfl
    rw [hfails, Look.file, Option.map_some, get_same 1000 _ rfl rfl, keyed_plain]
    rfl

end History

end DeviceRegistry

end OpusFleet.Server.Auth
