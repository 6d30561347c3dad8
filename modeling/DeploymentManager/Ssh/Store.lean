import Mathlib.Data.List.AList

namespace DeploymentManager.Ssh

structure Versioned (α : Type) where
  value : α
  version : Nat

/-- Modelled from the spec: `versioned_map.Map`, one versioned record per key. A read
returns the value written last: stored values are not shared with the caller. -/
structure VersionedMap (α : Type) where
  records : AList (fun _ : String => Versioned α)

namespace VersionedMap

variable {α : Type}

def empty : VersionedMap α := ⟨∅⟩

def version (m : VersionedMap α) (key : String) : Nat :=
  ((m.records.lookup key).map Versioned.version).getD 0

def value (m : VersionedMap α) (key : String) : Option α :=
  (m.records.lookup key).map Versioned.value

def update (m : VersionedMap α) (key : String) (v : α) : VersionedMap α :=
  ⟨m.records.insert key ⟨v, m.version key + 1⟩⟩

/-- `Read(ctx, key, version)`: the value and version of `key` at once when `since` is empty
(`none`) or stale; `none` while `since` is the current version, when the reader blocks. -/
def read (m : VersionedMap α) (key : String) (since : Option Nat) : Option (Option α × Nat) :=
  if since = some (m.version key) then none else some (m.value key, m.version key)

@[simp] theorem value_empty (key : String) : (empty : VersionedMap α).value key = none := rfl

@[simp] theorem version_empty (key : String) : (empty : VersionedMap α).version key = 0 := rfl

@[simp] theorem value_update (m : VersionedMap α) (key k : String) (v : α) :
    (m.update key v).value k = if k = key then some v else m.value k := by
  by_cases h : k = key
  · subst h; simp [update, value]
  · simp [update, value, AList.lookup_insert_ne, h]

@[simp] theorem version_update (m : VersionedMap α) (key k : String) (v : α) :
    (m.update key v).version k = if k = key then m.version key + 1 else m.version k := by
  by_cases h : k = key
  · subst h; simp [update, version]
  · simp [update, version, AList.lookup_insert_ne, h]

@[simp] theorem read_none (m : VersionedMap α) (key : String) :
    m.read key none = some (m.value key, m.version key) := by
  simp [read]

/-- `m'` comes after `m`: no version went back, and a record whose version did not move
kept its value. -/
structure Later (m m' : VersionedMap α) : Prop where
  version_le : ∀ key, m.version key ≤ m'.version key
  value_eq : ∀ key, m'.version key = m.version key → m'.value key = m.value key

theorem Later.refl (m : VersionedMap α) : m.Later m := ⟨fun _ => le_rfl, fun _ _ => rfl⟩

theorem Later.trans {m m' m'' : VersionedMap α} (h : m.Later m') (h' : m'.Later m'') :
    m.Later m'' where
  version_le key := (h.version_le key).trans (h'.version_le key)
  value_eq key he := by
    have h₁ := h.version_le key
    have h₂ := h'.version_le key
    rw [h'.value_eq key (by omega), h.value_eq key (by omega)]

theorem later_update (m : VersionedMap α) (key : String) (v : α) : m.Later (m.update key v) where
  version_le k := by
    rw [version_update]
    split_ifs with h
    · rw [h]; omega
    · exact le_rfl
  value_eq k he := by
    rw [version_update] at he
    split_ifs at he with h
    · subst h; omega
    · rw [value_update, if_neg h]

/-- A reader that passes back the version it got from an earlier map either blocks, while
the record still holds what it got, or at once gets the current record at a newer
version. -/
theorem Later.read {m m' : VersionedMap α} (h : m.Later m') {key : String}
    {since : Option Nat} {val : Option α} {v : Nat} (hr : m.read key since = some (val, v)) :
    (m'.read key (some v) = none ∧ m'.value key = val) ∨
      (v < m'.version key ∧ m'.read key (some v) = some (m'.value key, m'.version key)) := by
  unfold VersionedMap.read at hr
  split_ifs at hr
  obtain ⟨rfl, rfl⟩ := Prod.mk.inj (Option.some.inj hr)
  have hle := h.version_le key
  by_cases he : m'.version key = m.version key
  · exact .inl ⟨by simp [VersionedMap.read, he], h.value_eq key he⟩
  · exact .inr ⟨by omega, by simp [VersionedMap.read, Ne.symm he]⟩

end VersionedMap

def cleanElems (rooted : Bool) : List (List Char) → List (List Char) → List (List Char)
  | out, [] => out
  | out, e :: rest =>
    if e = [] ∨ e = ['.'] then cleanElems rooted out rest
    else if e = ['.', '.'] then
      match out with
      | top :: below =>
        if top = ['.', '.'] then cleanElems rooted (e :: out) rest
        else cleanElems rooted below rest
      | [] => cleanElems rooted (if rooted then [] else [e]) rest
    else cleanElems rooted (e :: out) rest

def clean (p : String) : String :=
  if p.toList = [] then "." else
    let rooted := p.toList.head? == some '/'
    let body := String.mk (List.intercalate ['/']
      (cleanElems rooted [] (p.toList.splitOn '/')).reverse)
    if rooted then "/" ++ body else if body.toList = [] then "." else body

def routingInfoKey : String := "routing_entries"

def appVersionStateKey : String := "app_version_state"

def routingKey (group : String) : String := clean (routingInfoKey ++ "/" ++ group)

end DeploymentManager.Ssh
