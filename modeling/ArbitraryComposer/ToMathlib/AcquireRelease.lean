import Mathlib.Data.List.Basic

/-!
# Atomic words with acquire and release

A word that several threads read and write atomically, where every load acquires and every store
releases. The stored values are kept in the order in which they were stored, each with what happened
before it. A load may return an old value, but none older than the thread has seen; it brings what
happened before the store. An exchange acts on the newest value, or is a load when it fails.

What happens before is a list of events of any type, which the program that uses the word records.

## Main definitions

- `Message`, `View`: a stored value, and what a thread has seen.
- `AtomicWord.load`, `AtomicWord.store`, `AtomicWord.compareExchange`: the operations.

## Main results

- `AtomicWord.load_eq_some`, `AtomicWord.compareExchange_cases`: what an operation does.
- `AtomicWord.Informs`: what every message from some index on knows, its readers know.
-/

/-- A stored value, with the events that happened before the store. -/
structure Message (α κ : Type) where
  /-- The value. -/
  value : α
  /-- The events before the store. -/
  known : List κ

/-- What a thread has seen of a word, and the events that happened before its next step. -/
structure View (κ : Type) where
  /-- The index of the newest value it has seen. -/
  seen : ℕ := 0
  /-- The events before its next step. -/
  known : List κ := []

namespace AtomicWord

variable {α κ : Type} {w w' : List (Message α κ)} {v v' : View κ} {m n : ℕ} {a x y : α} {e : κ}

/-- Reading a message. -/
def read (v : View κ) (m : ℕ) (msg : Message α κ) : View κ where
  seen := m
  known := v.known ++ msg.known

/-- A load of the `m`-th value, which must not be older than what the thread has seen. -/
def load (w : List (Message α κ)) (v : View κ) (m : ℕ) : Option (α × View κ) :=
  if m < v.seen then none else w[m]?.map fun msg => (msg.value, read v m msg)

/-- A store, after every earlier one: the only place it can have where the thread has seen the newest
value. -/
def store (w : List (Message α κ)) (v : View κ) (x : α) : List (Message α κ) × View κ :=
  (w ++ [⟨x, v.known⟩], { v with seen := w.length })

variable [DecidableEq α]

/-- An exchange of `y` for `x`, which fails as a load of another value. -/
def compareExchange (x y : α) (w : List (Message α κ)) (v : View κ) (m : ℕ) :
    Option (Bool × List (Message α κ) × View κ) :=
  if m < v.seen then none
  else
    match w[m]? with
    | none => none
    | some msg =>
      if msg.value ≠ x then some (false, w, read v m msg)
      else if m + 1 = w.length then
        some (true, w ++ [⟨y, v.known ++ msg.known⟩],
          { seen := w.length, known := v.known ++ msg.known })
      else none

omit [DecidableEq α] in
/-- What a load does. -/
theorem load_eq_some (h : load w v m = some (a, v')) :
    ∃ msg, w[m]? = some msg ∧ v.seen ≤ m ∧ a = msg.value ∧ v' = read v m msg := by
  rw [load] at h
  split at h
  case isTrue => cases h
  case isFalse hseen =>
    obtain ⟨msg, hmsg, heq⟩ := Option.map_eq_some_iff.mp h
    obtain ⟨rfl, rfl⟩ := Prod.mk.inj heq
    exact ⟨msg, hmsg, Nat.le_of_not_lt hseen, rfl, rfl⟩

/-- What an exchange does: it fails as a load of another value, or it replaces the newest one. -/
theorem compareExchange_cases {b : Bool} (h : compareExchange x y w v m = some (b, w', v')) :
    ∃ msg, w[m]? = some msg ∧ v.seen ≤ m ∧
      ((b = false ∧ msg.value ≠ x ∧ w' = w ∧ v' = read v m msg) ∨
        (b = true ∧ msg.value = x ∧ m + 1 = w.length ∧
          w' = w ++ [⟨y, v.known ++ msg.known⟩] ∧
          v' = { seen := w.length, known := v.known ++ msg.known })) := by
  rw [compareExchange] at h
  split at h
  case isTrue => cases h
  case isFalse hseen =>
    have hseen := Nat.le_of_not_lt hseen
    split at h
    case h_1 => cases h
    case h_2 msg hmsg =>
      split at h
      case isTrue hne =>
        cases h
        exact ⟨msg, hmsg, hseen, Or.inl ⟨rfl, hne, rfl, rfl⟩⟩
      case isFalse heq =>
        split at h
        case isTrue hlast =>
          cases h
          exact ⟨msg, hmsg, hseen, Or.inr ⟨rfl, not_not.mp heq, hlast, rfl, rfl⟩⟩
        case isFalse => cases h

/-! ## What readers learn -/

/-- Every message from index `n` on knows an event. -/
def Informs (w : List (Message α κ)) (n : ℕ) (e : κ) : Prop :=
  ∀ m msg, n ≤ m → w[m]? = some msg → e ∈ msg.known

/-- A thread that has seen a message from index `n` on knows an event. -/
def Informed (v : View κ) (n : ℕ) (e : κ) : Prop := n ≤ v.seen → e ∈ v.known

omit [DecidableEq α] in
/-- A reader learns it. -/
theorem Informs.read {msg : Message α κ} (h : Informs w n e) (hmsg : w[m]? = some msg) :
    Informed (read v m msg) n e :=
  fun hle => List.mem_append_right _ (h m msg hle hmsg)

omit [DecidableEq α] in
/-- A further message that knows it, where it is late enough to. -/
theorem Informs.append {msg : Message α κ} (h : Informs w n e)
    (hnew : n ≤ w.length → e ∈ msg.known) : Informs (w ++ [msg]) n e := by
  intro m msg' hle hmsg
  rcases Nat.lt_or_ge m w.length with hlt | hge
  · rw [List.getElem?_append_left hlt] at hmsg
    exact h m msg' hle hmsg
  · rw [List.getElem?_append_right hge] at hmsg
    obtain ⟨hzero, rfl⟩ := List.getElem?_eq_some_iff.mp hmsg
    have hm : m = w.length := by
      rw [List.length_singleton] at hzero
      omega
    simpa using hnew (hm ▸ hle)

/-- The views of two threads, where one is told what the other knows. -/
def join (v v' : View κ) : View κ where
  seen := max v.seen v'.seen
  known := v.known ++ v'.known

/-- Who is told learns it. -/
theorem Informed.join (h : Informed v n e) (h' : Informed v' n e) : Informed (join v v') n e := by
  intro hle
  have hcases : n ≤ v.seen ∨ n ≤ v'.seen := by
    change n ≤ max v.seen v'.seen at hle
    omega
  rcases hcases with hv | hv'
  · exact List.mem_append_left _ (h hv)
  · exact List.mem_append_right _ (h' hv')

end AtomicWord
