import Mathlib.Algebra.Group.Nat.Defs

/-!
# Sequence Locks

A lock with one writer and readers that never wait. The writer makes the generation odd, stores into
the payload piece by piece, and makes the generation even again. A reader takes the generation before
and after it reads: where both are one even number, nothing was written in between.

The generation is a machine word and wraps. The writes are counted in a history, which no reader
sees; a reader is deceived only when the word comes round to the same value while it reads.

## Main definitions

- `SequenceLock`: the payload and the generation.
- `SequenceLock.Track`: how often the generation moved, and the payload of the last finished write.
- `SequenceLock.Rest`, `SequenceLock.Busy`: no write, or one write, is in progress.

## Main results

- `SequenceLock.Rest.begin`, `Busy.store`, `Busy.finish`: the writer.
- `SequenceLock.validate`: a reader that finds its generation again has read a finished write.
-/

/-- A payload and the generation of its writes. -/
structure SequenceLock (π : Type) where
  /-- What is guarded. -/
  payload : π
  /-- The generation: even at rest, odd while a write is in progress. -/
  seq : UInt64

namespace SequenceLock

variable {π : Type}

/-- What a lock has seen. -/
structure Track (π : Type) where
  /-- How often the generation moved. -/
  generation : ℕ
  /-- The payload of the last finished write. -/
  settled : π

/-- No write is in progress. -/
structure Rest (l : SequenceLock π) (t : Track π) : Prop where
  /-- Every write is finished. -/
  even : t.generation % 2 = 0
  /-- The word counts the moves. -/
  seq_eq : l.seq = UInt64.ofNat t.generation
  /-- The payload is that of the last write. -/
  payload_eq : l.payload = t.settled

/-- A write is in progress, which found a generation. -/
structure Busy (l : SequenceLock π) (t : Track π) (found : UInt64) : Prop where
  /-- A write is not finished. -/
  odd : t.generation % 2 = 1
  /-- The word counts the moves. -/
  seq_eq : l.seq = UInt64.ofNat t.generation
  /-- The write has moved the generation once. -/
  found_eq : l.seq = found + 1

/-- A history goes on from another: the payload is the same while the generation is. -/
structure Track.Extends (t t₀ : Track π) : Prop where
  /-- The generation only grows. -/
  le : t₀.generation ≤ t.generation
  /-- Nothing is written without it. -/
  settled_eq : t.generation = t₀.generation → t.settled = t₀.settled

variable {l : SequenceLock π} {t t₀ : Track π} {found : UInt64}

theorem Track.Extends.refl (t : Track π) : t.Extends t := ⟨Nat.le_refl _, fun _ => rfl⟩

theorem Track.Extends.trans {t' : Track π} (h : t'.Extends t) (h' : t.Extends t₀) :
    t'.Extends t₀ := by
  have hle := h.le
  have hle' := h'.le
  refine ⟨Nat.le_trans hle' hle, fun heq => ?_⟩
  rw [h.settled_eq (by omega), h'.settled_eq (by omega)]

/-- A history with a further move. -/
theorem Track.Extends.moved (h : t.Extends t₀) (p : π) :
    Track.Extends ⟨t.generation + 1, p⟩ t₀ := by
  have hle := h.le
  refine ⟨Nat.le_succ_of_le hle, fun heq => ?_⟩
  dsimp only at heq
  omega

/-- A write begins. -/
theorem Rest.begin (h : Rest l t) :
    Busy { l with seq := l.seq + 1 } { t with generation := t.generation + 1 } l.seq := by
  have heven := h.even
  refine ⟨?_, ?_, rfl⟩
  · show (t.generation + 1) % 2 = 1
    omega
  · show l.seq + 1 = UInt64.ofNat (t.generation + 1)
    rw [h.seq_eq, UInt64.ofNat_add]
    rfl

/-- A write stores into the payload. -/
theorem Busy.store (h : Busy l t found) (p : π) : Busy { l with payload := p } t found :=
  ⟨h.odd, h.seq_eq, h.found_eq⟩

/-- A write is finished. -/
theorem Busy.finish (h : Busy l t found) :
    Rest { l with seq := found + 2 } ⟨t.generation + 1, l.payload⟩ := by
  have hodd := h.odd
  refine ⟨?_, ?_, rfl⟩
  · show (t.generation + 1) % 2 = 0
    omega
  · show found + 2 = UInt64.ofNat (t.generation + 1)
    have hword : found + 2 = found + 1 + 1 := by
      rw [UInt64.add_assoc]
      rfl
    rw [hword, ← h.found_eq, h.seq_eq, UInt64.ofNat_add]
    rfl

/-- The parity of the word is that of the moves. -/
theorem even_seq_iff (hseq : l.seq = UInt64.ofNat t.generation) :
    l.seq % 2 = 0 ↔ t.generation % 2 = 0 := by
  rw [hseq, ← UInt64.toNat_inj]
  simp only [UInt64.toNat_mod, UInt64.toNat_ofNat', UInt64.reduceToNat]
  omega

/-- A reader that finds an even generation again, before the word could come round, has read from a
finished write. -/
theorem validate {s : UInt64} (h : Rest l t ∨ ∃ found, Busy l t found) (hextends : t.Extends t₀)
    (hs : s = UInt64.ofNat t₀.generation) (heven : t₀.generation % 2 = 0) (hseq : l.seq = s)
    (hwrap : t.generation < t₀.generation + 2 ^ 64) :
    t.generation = t₀.generation ∧ l.payload = t₀.settled := by
  have hword : l.seq = UInt64.ofNat t.generation :=
    h.elim Rest.seq_eq fun ⟨_, hbusy⟩ => hbusy.seq_eq
  have hnat : t.generation % 2 ^ 64 = t₀.generation % 2 ^ 64 := by
    have heq := congrArg UInt64.toNat (hword.symm.trans (hseq.trans hs))
    rwa [UInt64.toNat_ofNat', UInt64.toNat_ofNat'] at heq
  have hle := hextends.le
  have hsame : t.generation = t₀.generation := by omega
  refine ⟨hsame, ?_⟩
  rcases h with hrest | ⟨found, hbusy⟩
  · rw [hrest.payload_eq, hextends.settled_eq hsame]
  · have hodd := hbusy.odd
    omega

end SequenceLock
