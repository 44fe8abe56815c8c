import Mathlib.Data.List.AList

/-!
# The controller registry

`StandaloneMediaServer` keeps its managers in a `HashMap<ControlProtocol,
ServerManager>`. The field is private and only `addManager` writes to it, so
every manager is filed under its own protocol; the registry carries that
fact. Iteration over a `HashMap` has no specified order, and each loop of the
server is given one.
-/

namespace MediaServer

/-- `ServerManager`: a control module, known to the server by its protocol.
Managers are compared by identity, as references are. -/
class ServerManager (M : Type) (P : outParam Type) where
  getControlProtocol : M → P

export ServerManager (getControlProtocol)

/-- A manager as plain data, for runs on concrete input. -/
structure PlainManager where
  id : ℕ
  protocol : ℕ
deriving DecidableEq

instance : ServerManager PlainManager ℕ := ⟨PlainManager.protocol⟩

/-- One order in which a loop may visit the values of a map. -/
structure IterationOrder (M : Type) where
  arrange : List M → List M
  perm : ∀ l, (arrange l).Perm l

/-- The order of the list itself. -/
def IterationOrder.listed (M : Type) : IterationOrder M :=
  ⟨id, fun _ => List.Perm.refl _⟩

theorem IterationOrder.mem_arrange {M : Type} (it : IterationOrder M)
    {l : List M} {m : M} : m ∈ it.arrange l ↔ m ∈ l :=
  (it.perm l).mem_iff

/-- `HashMap<ControlProtocol, ServerManager>` as the server uses it. -/
structure Controllers (M : Type) {P : Type} [ServerManager M P] where
  map : AList fun _ : P => M
  keyed : ∀ e ∈ map.entries, getControlProtocol e.2 = e.1

namespace Controllers

variable {M P : Type} [ServerManager M P]

def empty : Controllers M := ⟨∅, by simp⟩

def values (c : Controllers M) : List M := c.map.entries.map Sigma.snd

variable [DecidableEq P]

def get? (c : Controllers M) (protocol : P) : Option M := c.map.lookup protocol

def containsKey (c : Controllers M) (protocol : P) : Bool :=
  (c.get? protocol).isSome

/-- `put(manager.getControlProtocol(), manager)`. -/
def put (c : Controllers M) (manager : M) : Controllers M where
  map := c.map.insert (getControlProtocol manager) manager
  keyed := by
    intro e he
    rw [AList.entries_insert, List.mem_cons] at he
    rcases he with rfl | he
    · rfl
    · exact c.keyed e ((List.kerase_sublist _ _).subset he)

def remove (c : Controllers M) (protocol : P) : Controllers M where
  map := c.map.erase protocol
  keyed := fun e he => c.keyed e ((List.kerase_sublist _ _).subset he)

omit [DecidableEq P] in
@[simp] theorem values_empty : (empty : Controllers M).values = [] := rfl

/-- A manager is registered exactly when its protocol leads to it. -/
theorem mem_values_iff {c : Controllers M} {m : M} :
    m ∈ c.values ↔ c.get? (getControlProtocol m) = some m := by
  unfold values get?
  rw [List.mem_map]
  constructor
  · rintro ⟨⟨p, m'⟩, he, rfl⟩
    have hp : getControlProtocol m' = p := c.keyed _ he
    subst hp
    exact AList.mem_lookup_iff.mpr he
  · intro h
    exact ⟨⟨_, m⟩, AList.mem_lookup_iff.mp h, rfl⟩

theorem getControlProtocol_of_get? {c : Controllers M} {protocol : P} {m : M}
    (h : c.get? protocol = some m) : getControlProtocol m = protocol :=
  c.keyed _ (AList.mem_lookup_iff.mp h)

omit [DecidableEq P] in
/-- No manager is registered twice. -/
theorem values_nodup (c : Controllers M) : c.values.Nodup := by
  have hkeys : c.values.map getControlProtocol = c.map.keys := by
    unfold values AList.keys List.keys
    rw [List.map_map]
    exact List.map_congr_left c.keyed
  exact List.Nodup.of_map _ (hkeys ▸ c.map.keys_nodup)

theorem mem_values_put {c : Controllers M} {m m' : M}
    (h : c.containsKey (getControlProtocol m) = false) :
    m' ∈ (c.put m).values ↔ m' ∈ c.values ∨ m' = m := by
  have hfree : c.get? (getControlProtocol m) = none := by
    simpa [containsKey] using h
  rw [mem_values_iff, mem_values_iff]
  unfold get? put at *
  by_cases hp : getControlProtocol m' = getControlProtocol m
  · rw [hp, AList.lookup_insert, hfree]
    simp [eq_comm]
  · rw [AList.lookup_insert_ne hp]
    constructor
    · exact Or.inl
    · rintro (hm | rfl)
      · exact hm
      · exact absurd rfl hp

/-- Removing a protocol drops the manager filed under it and no other. -/
theorem mem_values_remove {c : Controllers M} {protocol : P} {m : M} :
    m ∈ (c.remove protocol).values ↔
      m ∈ c.values ∧ getControlProtocol m ≠ protocol := by
  rw [mem_values_iff, mem_values_iff]
  unfold get? remove
  by_cases hp : getControlProtocol m = protocol
  · rw [← hp, AList.lookup_erase]
    simp
  · rw [AList.lookup_erase_ne hp]
    simp [hp]

end Controllers

end MediaServer
