import Mathlib.Data.List.Basic
import Mathlib.Order.Nat

/-!
# Linear Edit Histories

A list of edits with a cursor, next to the trail of states around each edit. The trail is never
executed; it says which states an edit leads from and to. A history tracks a state when the
edits below the cursor lead up to it and those from the cursor on lead away from it, without a
gap. Appending, merging, dropping from the front and moving the cursor keep it so.

## Main definitions

- `Tracks`: the edits, the trail and the cursor fit the state.
- `historyBase`: the state before the oldest edit.

## Main results

- `Tracks.push`, `.merge`, `.drop`, `.undo`, `.redo`: the operations on a history.
- `Tracks.foldl_eq`: the edits below the cursor, applied to the base, give the state.
-/

variable {E M : Type}

/-- The state before the oldest edit; without an edit, the state itself. -/
def historyBase (trail : List (M × M)) (m : M) : M := (trail.head?.map Prod.fst).getD m

/-- The edits fit their trail, the trail has no gap, and the state is where the cursor is. -/
structure Tracks (spans : E → M → M → Prop) (entries : List E) (trail : List (M × M))
    (cursor : ℕ) (m : M) : Prop where
  /-- Every edit has a place in the trail. -/
  length_eq : trail.length = entries.length
  /-- An edit leads from the state before it to the state after it. -/
  spans : ∀ (k : ℕ) (e : E) (a : M × M), entries[k]? = some e → trail[k]? = some a → spans e a.1 a.2
  /-- An edit starts where the one before it ended. -/
  chain : ∀ (k : ℕ) (a b : M × M), trail[k]? = some a → trail[k + 1]? = some b → a.2 = b.1
  /-- The cursor is within the history. -/
  cursor_le : cursor ≤ entries.length
  /-- The last edit applied ended at the state. -/
  left : ∀ (k : ℕ) (a : M × M), cursor = k + 1 → trail[k]? = some a → a.2 = m
  /-- The next edit starts at the state. -/
  right : ∀ a : M × M, trail[cursor]? = some a → a.1 = m

namespace Tracks

variable {spans : E → M → M → Prop} {entries : List E} {trail : List (M × M)} {cursor k : ℕ}
  {m m' : M} {e e₀ : E} {a : M × M}

theorem nil : Tracks spans [] [] 0 m :=
  ⟨rfl, by simp, by simp, le_rfl, by simp, by simp⟩

/-- Without an edit the history tracks every state. -/
theorem of_nil (h : Tracks spans [] trail cursor m) (m' : M) : Tracks spans [] trail cursor m' := by
  obtain ⟨hlen, -, -, hcursor, -, -⟩ := h
  rw [List.eq_nil_of_length_eq_zero hlen, Nat.le_zero.mp hcursor]
  exact .nil

/-- An edit is appended at the cursor; what could be redone is dropped. -/
theorem push (h : Tracks spans entries trail cursor m) (he : spans e m m') :
    Tracks spans (entries.take cursor ++ [e]) (trail.take cursor ++ [(m, m')])
      (entries.take cursor ++ [e]).length m' := by
  have hlen := h.length_eq
  have hcur := h.cursor_le
  have htake : (trail.take cursor).length = cursor := by
    rw [List.length_take]
    omega
  have htake' : (entries.take cursor).length = cursor := by
    rw [List.length_take]
    omega
  have hget : ∀ {j : ℕ} {b : M × M}, (trail.take cursor ++ [(m, m')])[j]? = some b →
      (j < cursor ∧ trail[j]? = some b) ∨ (j = cursor ∧ b = (m, m')) := by
    intro j b hj
    rcases Nat.lt_trichotomy j cursor with hlt | rfl | hgt
    · rw [List.getElem?_append_left (by omega), List.getElem?_take_of_lt hlt] at hj
      exact Or.inl ⟨hlt, hj⟩
    · rw [List.getElem?_append_right htake.le, htake] at hj
      exact Or.inr ⟨rfl, by simpa using hj.symm⟩
    · rw [List.getElem?_eq_none (by simp [htake]; omega)] at hj
      cases hj
  refine ⟨by simp [htake, htake'], fun j e' b hj hb => ?_, fun j b c hb hc => ?_, le_rfl,
    fun j b hj hb => ?_, fun b hb => ?_⟩
  · rcases hget hb with ⟨hlt, hb⟩ | ⟨rfl, rfl⟩
    · rw [List.getElem?_append_left (by omega), List.getElem?_take_of_lt hlt] at hj
      exact h.spans j e' b hj hb
    · rw [List.getElem?_append_right htake'.le, htake', Nat.sub_self] at hj
      obtain rfl : e = e' := by simpa using hj
      exact he
  · rcases hget hc with ⟨hlt, hc⟩ | ⟨hj, rfl⟩
    · rcases hget hb with ⟨-, hb⟩ | ⟨rfl, -⟩
      · exact h.chain j b c hb hc
      · omega
    · rcases hget hb with ⟨-, hb⟩ | ⟨rfl, -⟩
      · exact h.left j b hj.symm hb
      · omega
  · rw [List.length_append, htake', List.length_singleton] at hj
    rcases hget hb with ⟨hlt, -⟩ | ⟨-, rfl⟩
    · omega
    · rfl
  · rw [List.length_append, htake', List.length_singleton] at hb
    rcases hget hb with ⟨hlt, -⟩ | ⟨hj, -⟩ <;> omega

/-- The state before the newest edit, when that is applied. -/
theorem below_last (h : Tracks spans entries trail entries.length m)
    (hlast : entries.getLast? = some e₀) : ∃ a, trail.getLast? = some a ∧ spans e₀ a.1 m ∧
      Tracks spans entries trail (entries.length - 1) a.1 := by
  have hne : entries ≠ [] := fun hnil => by simp [hnil] at hlast
  have hpos := List.length_pos_iff.mpr hne
  have hlen := h.length_eq
  obtain ⟨a, ha⟩ : ∃ a, trail.getLast? = some a := by
    refine ⟨_, List.getLast?_eq_some_getLast fun hnil => ?_⟩
    rw [hnil, List.length_nil] at hlen
    omega
  have hlast' : entries[entries.length - 1]? = some e₀ := by rw [← List.getLast?_eq_getElem?, hlast]
  have ha' : trail[entries.length - 1]? = some a := by
    rw [← hlen, ← List.getLast?_eq_getElem?, ha]
  have ham : a.2 = m := h.left (entries.length - 1) a (by omega) ha'
  refine ⟨a, ha, ham ▸ h.spans _ e₀ a hlast' ha', hlen, h.spans, h.chain, by omega,
    fun k b hk hb => ?_, fun b hb => ?_⟩
  · exact h.chain k b a hb (by rw [← hk, ha'])
  · rw [ha'] at hb
    cases hb
    rfl

/-- The newest edit, which is applied, is replaced by one that leads further. -/
theorem merge (h : Tracks spans entries trail entries.length m) (hlast : entries.getLast? = some e₀)
    (hspans : ∀ b, spans e₀ b m → spans e b m') :
    Tracks spans (entries.dropLast ++ [e])
      (trail.dropLast ++ (trail.getLast?.map fun a => (a.1, m')).toList)
      (entries.dropLast ++ [e]).length m' := by
  obtain ⟨a, ha, hlead, hbelow⟩ := h.below_last hlast
  -- an append below the last edit
  have hpush := hbelow.push (hspans a.1 hlead)
  rw [ha, Option.map_some, Option.toList_some, List.dropLast_eq_take, List.dropLast_eq_take,
    h.length_eq]
  exact hpush

/-- Edits below the cursor are dropped from the front. -/
theorem drop (h : Tracks spans entries trail cursor m) (hk : k ≤ cursor) :
    Tracks spans (entries.drop k) (trail.drop k) (cursor - k) m := by
  refine ⟨by simp [h.length_eq], fun j e' b hj hb => ?_, fun j b c hb hc => ?_, ?_,
    fun j b hj hb => ?_, fun b hb => ?_⟩
  · rw [List.getElem?_drop] at hj hb
    exact h.spans _ e' b hj hb
  · rw [List.getElem?_drop] at hb hc
    exact h.chain (k + j) b c hb hc
  · have := h.cursor_le
    rw [List.length_drop]
    omega
  · rw [List.getElem?_drop] at hb
    exact h.left _ b (by omega) hb
  · rw [List.getElem?_drop, Nat.add_sub_cancel' hk] at hb
    exact h.right b hb

/-- Going back over an edit leads to the state before it. -/
theorem undo (h : Tracks spans entries trail (k + 1) m) (ha : trail[k]? = some a) :
    Tracks spans entries trail k a.1 := by
  refine ⟨h.length_eq, h.spans, h.chain, by have := h.cursor_le; omega, fun j b hj hb => ?_,
    fun b hb => ?_⟩
  · exact h.chain j b a hb (hj ▸ ha)
  · rw [ha] at hb
    cases hb
    rfl

/-- Going forward over an edit leads to the state after it. -/
theorem redo (h : Tracks spans entries trail k m) (ha : trail[k]? = some a) :
    Tracks spans entries trail (k + 1) a.2 := by
  have hlt := (List.getElem?_eq_some_iff.mp ha).1
  refine ⟨h.length_eq, h.spans, h.chain, by rw [← h.length_eq]; omega, fun j b hj hb => ?_,
    fun b hb => ?_⟩
  · obtain rfl : k = j := by omega
    rw [ha] at hb
    cases hb
    rfl
  · exact (h.chain k a b ha hb).symm

/-- The edit below the cursor and its place in the trail. -/
theorem exists_left (h : Tracks spans entries trail (k + 1) m) (he : entries[k]? = some e) :
    ∃ a, trail[k]? = some a ∧ spans e a.1 a.2 ∧ a.2 = m := by
  have hlt := (List.getElem?_eq_some_iff.mp he).1
  have ha := List.getElem?_eq_getElem (show k < trail.length by rw [h.length_eq]; exact hlt)
  exact ⟨_, ha, h.spans k e _ he ha, h.left k _ rfl ha⟩

/-- The edit at the cursor and its place in the trail. -/
theorem exists_right (h : Tracks spans entries trail k m) (he : entries[k]? = some e) :
    ∃ a, trail[k]? = some a ∧ spans e a.1 a.2 ∧ a.1 = m := by
  have hlt := (List.getElem?_eq_some_iff.mp he).1
  have ha := List.getElem?_eq_getElem (show k < trail.length by rw [h.length_eq]; exact hlt)
  exact ⟨_, ha, h.spans k e _ he ha, h.right _ ha⟩

/-- The edits below the cursor, applied in order to the base, give the state. -/
theorem foldl_eq (h : Tracks spans entries trail cursor m) {apply : M → E → M}
    (happly : ∀ e a b, spans e a b → apply a e = b) :
    (entries.take cursor).foldl apply (historyBase trail m) = m := by
  induction cursor generalizing m with
  | zero =>
    rw [List.take_zero, List.foldl_nil, historyBase]
    cases hhead : trail.head? with
    | none => rfl
    | some a => exact h.right a (by rw [← List.head?_eq_getElem?, hhead])
  | succ k ih =>
    have hlt : k < entries.length := h.cursor_le
    obtain ⟨a, ha, hspans, rfl⟩ := h.exists_left (List.getElem?_eq_getElem hlt)
    have hbase : historyBase trail a.2 = historyBase trail a.1 := by
      rw [historyBase, historyBase]
      cases trail with
      | nil => simp at ha
      | cons b rest => rfl
    rw [List.take_succ_eq_append_getElem hlt, List.foldl_append, hbase, ih (h.undo ha)]
    exact happly _ _ _ hspans

end Tracks
