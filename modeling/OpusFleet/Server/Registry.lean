import OpusFleet.Server.Auth

namespace OpusFleet.Server.Auth

open Python Library

/-- The key file at one moment: what `os.path.getmtime` gives, and what
opening and reading it gives. -/
structure KeyFile where
  mtime : Except Exc Time
  text : Except Exc Str

structure DeviceRegistry where
  path : Str
  inline : Str
  keys : Dict Str Bytes
  mtime : Option Time

def osError : Exc → Bool
  | .timeout | .connection => true
  | _ => false

def spoiled : Exc → Bool
  | .timeout | .connection | .value | .unicode => true
  | _ => false

/-- One entry of `DEVICE_KEYS`. The text of the AuthError leaves the entry's `repr` out. -/
def parseEntry (keys : Dict Str Bytes) (pair : Str) : Except Exc (Dict Str Bytes) :=
  let pair := strip pair
  if pair = [] then .ok keys
  else if 58 ∉ pair then .error (.auth (lit "malformed DEVICE_KEYS entry , expected id:hexkey"))
  else
    match fromHex (strip (splitOnce 58 pair).2) with
    | none => .error .value
    | some key => .ok (keys.set (strip (splitOnce 58 pair).1) key)

def parseInline (raw : Str) : Except Exc (Dict Str Bytes) :=
  (raw.splitOn 44).foldlM parseEntry .empty

def loadItem (keys : Dict Str Bytes) (item : Str × Value) : Except Exc (Dict Str Bytes) :=
  match item.2 with
  | .str key =>
    match fromHex key with
    | none => .error .value
    | some key => .ok (keys.set item.1 key)
  | _ => .error .type

/-- The body of the `with` block of `reload`. -/
def loadItems (limit : ℕ) (keys : Dict Str Bytes) (text : Str) : Except Exc (Dict Str Bytes) :=
  match loads limit text with
  | .error .value => .error .value
  | .error .recursion => .error .recursion
  | .ok (.dict items) => items.foldlM loadItem keys
  | .ok _ => .error .attribute

namespace DeviceRegistry

variable (limit : ℕ)

/-- The file as `self.path and os.path.exists(self.path)` finds it. -/
def seen (r : DeviceRegistry) (file : Option KeyFile) : Option KeyFile :=
  if r.path = [] then none else file

def reload (r : DeviceRegistry) (file : Option KeyFile) : DeviceRegistry × Except Exc Unit :=
  match if r.inline = [] then .ok .empty else parseInline r.inline with
  | .error e => (r, .error e)
  | .ok keys =>
    match r.seen file with
    | none => ({ r with keys := keys }, .ok ())
    | some file =>
      match file.mtime with
      | .error e => (r, if spoiled e then .ok () else .error e)
      | .ok mtime =>
        match file.text >>= loadItems limit keys with
        | .error e => ({ r with mtime := some mtime }, if spoiled e then .ok () else .error e)
        | .ok keys => ({ r with mtime := some mtime, keys := keys }, .ok ())

def load (path inline : Str) (file : Option KeyFile) : DeviceRegistry × Except Exc Unit :=
  reload limit ⟨path, inline, .empty, none⟩ file

def maybeReload (r : DeviceRegistry) (file : Option KeyFile) : DeviceRegistry × Except Exc Unit :=
  match r.seen file with
  | none => (r, .ok ())
  | some seen =>
    match seen.mtime with
    | .error e => (r, if osError e then .ok () else .error e)
    | .ok mtime =>
      if r.mtime = some mtime then (r, .ok ())
      else
        match r.reload limit file with
        | (r, .error e) => (r, if osError e then .ok () else .error e)
        | (r, .ok ()) => (r, .ok ())

def get (r : DeviceRegistry) (file : Option KeyFile) (deviceId : Str) :
    DeviceRegistry × Except Exc (Option Bytes) :=
  match r.maybeReload limit file with
  | (r, .error e) => (r, .error e)
  | (r, .ok ()) => (r, .ok (r.keys.get deviceId))

/-- The registry as one handshake finds it. -/
def view (r : DeviceRegistry) (file : Option KeyFile) : Registry :=
  fun deviceId ↦ (r.get limit file deviceId).2

end DeviceRegistry

/-- The ids that come from `DEVICE_KEYS` have no ':' and no outer white space. -/
def CleanIds (keys : Dict Str Bytes) : Prop :=
  ∀ id, (keys.get id).isSome = true → 58 ∉ id ∧ strip id = id

theorem parseEntry_clean {keys keys' : Dict Str Bytes} {pair : Str} (hkeys : CleanIds keys)
    (h : parseEntry keys pair = .ok keys') : CleanIds keys' := by
  rw [parseEntry] at h
  split at h
  · obtain rfl := Except.ok.inj h
    exact hkeys
  split at h
  · cases h
  split at h
  · cases h
  · next key _ =>
    obtain rfl := Except.ok.inj h
    intro id hid
    rw [Dict.get_set] at hid
    split at hid
    · next heq =>
      rw [heq]
      refine ⟨?_, strip_idem _⟩
      intro hmem
      simpa using List.mem_takeWhile_imp (mem_strip hmem)
    · exact hkeys id hid

theorem parseInline_clean {raw : Str} {keys : Dict Str Bytes} (h : parseInline raw = .ok keys) :
    CleanIds keys := by
  have hfold (pairs : List Str) (keys₀ : Dict Str Bytes) (h₀ : CleanIds keys₀)
      (h : pairs.foldlM parseEntry keys₀ = .ok keys) : CleanIds keys := by
    induction pairs generalizing keys₀ with
    | nil =>
      obtain rfl := Except.ok.inj h
      exact h₀
    | cons pair pairs ih =>
      rw [List.foldlM_cons] at h
      cases hp : parseEntry keys₀ pair with
      | error e =>
        rw [hp] at h
        cases h
      | ok keys₁ =>
        rw [hp] at h
        exact ih keys₁ (parseEntry_clean h₀ hp) h
  apply hfold _ .empty ?_ h
  intro id hid
  simp at hid

end OpusFleet.Server.Auth
