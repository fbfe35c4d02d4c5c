import Mathlib.Data.List.GetD
import Mathlib.Tactic.Ring
import Mathlib.Tactic.Linarith

/-!
# A Window of a Stream in a Fixed Buffer

A stream of frames, each of `stride` interleaved values, comes in blocks. A buffer of fixed size
keeps the last of its frames: old frames are discarded by moving the rest to the front, and a block
is copied behind what is kept. A frame that was not discarded is read from it as from the stream.

## Main definitions

- `StreamWindow`: a buffer, the frames in it, and the position of the first of them.
- `discard`, `append`, `read`: its operations.
- `streamRead`: the same read of the whole stream, which is `zero` outside.
- `Holds`: the window keeps the end of the stream.

## Main results

- `Holds.discard`, `Holds.append`: the operations keep the window in step with the stream.
- `Holds.read_eq`: what is not discarded and has come is read as from the stream.
-/

variable {α : Type} {stride : ℕ}

/-- A window of a stream: the frames from `base` on, `len` of them, at the front of a buffer. -/
structure StreamWindow (α : Type) where
  /-- The storage; its length never changes. -/
  buffer : List α
  /-- The position in the stream of the first frame kept. -/
  base : ℕ
  /-- How many frames are kept. -/
  len : ℕ
  deriving DecidableEq, Repr

/-- A value of a frame of a stream; a frame outside of it is `zero`. -/
def streamRead (zero : α) (stride : ℕ) (stream : List α) (idx : ℤ) (c : ℕ) : α :=
  if 0 ≤ idx ∧ idx < (stream.length / stride : ℕ) then stream.getD (idx.toNat * stride + c) zero
  else zero

/-- Zero frames at the end of a stream read as its end does. -/
theorem streamRead_append_zeros (zero : α) (stream : List α) (hdvd : stride ∣ stream.length)
    (pad : ℕ) (idx : ℤ) {c : ℕ} (hc : c < stride) :
    streamRead zero stride (stream ++ List.replicate pad zero) idx c =
      streamRead zero stride stream idx c := by
  obtain ⟨k, hk⟩ := hdvd
  have hpos : 0 < stride := by omega
  have hframes : stream.length / stride = k := by rw [hk, Nat.mul_div_cancel_left k hpos]
  rw [streamRead, streamRead, hframes, List.length_append, List.length_replicate]
  by_cases hneg : idx < 0
  · rw [if_neg (by omega), if_neg (by omega)]
  by_cases hin : idx < k
  · -- a frame of the stream itself
    have hlt : idx.toNat * stride + c < stream.length := by
      have hle : (idx.toNat + 1) * stride ≤ k * stride := Nat.mul_le_mul_right _ (by omega)
      rw [hk, Nat.mul_comm stride k]
      linarith [hle, Nat.add_mul idx.toNat 1 stride]
    have hmono : k ≤ (stream.length + pad) / stride := by
      rw [Nat.le_div_iff_mul_le hpos, hk, Nat.mul_comm]
      exact Nat.le_add_right _ _
    rw [if_pos (by omega), if_pos (by omega), List.getD_append _ _ _ _ hlt]
  · -- a frame of the padding, or past it
    have hge : stream.length ≤ idx.toNat * stride + c := by
      have hle : k * stride ≤ idx.toNat * stride := Nat.mul_le_mul_right _ (by omega)
      rw [hk, Nat.mul_comm stride k]
      exact le_trans hle (Nat.le_add_right _ _)
    rw [if_neg (show ¬ (0 ≤ idx ∧ idx < (k : ℤ)) by omega)]
    split
    · rw [List.getD_append_right _ _ _ _ hge]
      simp only [List.getD_eq_getElem?_getD, List.getElem?_replicate]
      split <;> rfl
    · rfl

/-- A frame that has come is read in the same way however the stream goes on. -/
theorem streamRead_append (zero : α) {stream : List α} (rest : List α) {frames : ℕ}
    (hlen : stream.length = frames * stride) {idx : ℤ} (hidx : idx < frames) {c : ℕ}
    (hc : c < stride) :
    streamRead zero stride (stream ++ rest) idx c = streamRead zero stride stream idx c := by
  have hpos : 0 < stride := by omega
  have hframes : stream.length / stride = frames := by rw [hlen, Nat.mul_div_cancel _ hpos]
  have hmore : frames ≤ (stream ++ rest).length / stride := by
    rw [Nat.le_div_iff_mul_le hpos, List.length_append, hlen]
    exact Nat.le_add_right _ _
  rw [streamRead, streamRead, hframes]
  by_cases hneg : idx < 0
  · rw [if_neg (by omega), if_neg (by omega)]
  · have hlt : idx.toNat * stride + c < stream.length := by
      have hle : (idx.toNat + 1) * stride ≤ frames * stride := Nat.mul_le_mul_right _ (by omega)
      rw [hlen]
      linarith [hle, Nat.add_mul idx.toNat 1 stride]
    rw [if_pos (by omega), if_pos (by omega), List.getD_append _ _ _ _ hlt]

namespace StreamWindow

/-- An empty window at the start of a stream. -/
def fresh (buffer : List α) : StreamWindow α := ⟨buffer, 0, 0⟩

/-- A value of a frame; a frame that is not in the window is `zero`. -/
def read (w : StreamWindow α) (zero : α) (stride : ℕ) (idx : ℤ) (c : ℕ) : α :=
  let position := idx - w.base
  if position < 0 ∨ (w.len : ℤ) ≤ position then zero
  else w.buffer.getD (position.toNat * stride + c) zero

/-- The first frames are dropped and the others are moved to the front. -/
def discard (w : StreamWindow α) (stride drop : ℕ) : StreamWindow α where
  buffer :=
    let remain := (w.len - drop) * stride
    (w.buffer.drop (drop * stride)).take remain ++ w.buffer.drop remain
  base := w.base + drop
  len := w.len - drop

/-- A block of frames is copied behind the window; none when the buffer ends before the block. -/
def append (w : StreamWindow α) (stride : ℕ) (block : List α) : Option (StreamWindow α) :=
  if w.len * stride + block.length ≤ w.buffer.length then
    some
      { w with
        buffer := w.buffer.take (w.len * stride) ++ block ++
          w.buffer.drop (w.len * stride + block.length)
        len := w.len + block.length / stride }
  else none

/-- The window keeps the end of a stream: its frames are those from the base on, and all others have
been discarded. -/
structure Holds (w : StreamWindow α) (stride : ℕ) (stream : List α) : Prop where
  /-- The window ends where the stream does. -/
  length : stream.length = (w.base + w.len) * stride
  /-- What is kept fits the buffer. -/
  fits : w.len * stride ≤ w.buffer.length
  /-- What is kept is the end of the stream. -/
  kept : w.buffer.take (w.len * stride) = stream.drop (w.base * stride)

variable {w w' : StreamWindow α} {stream : List α}

/-- A fresh window holds the empty stream. -/
theorem holds_fresh (buffer : List α) : (fresh buffer).Holds stride [] where
  length := by rw [fresh, List.length_nil, Nat.add_zero, Nat.zero_mul]
  fits := by rw [fresh, Nat.zero_mul]; exact Nat.zero_le _
  kept := by rw [fresh, Nat.zero_mul, List.take_zero, List.drop_nil]

/-- Discarding keeps the window in step with the stream. -/
theorem Holds.discard (h : w.Holds stride stream) {drop : ℕ} (hdrop : drop ≤ w.len) :
    (w.discard stride drop).Holds stride stream := by
  have hsplit : drop * stride + (w.len - drop) * stride = w.len * stride := by
    rw [← Nat.add_mul, Nat.add_sub_cancel' hdrop]
  have hfits := h.fits
  have htaken : ((w.buffer.drop (drop * stride)).take ((w.len - drop) * stride)).length =
      (w.len - drop) * stride := by
    rw [List.length_take, List.length_drop]
    omega
  refine ⟨?_, ?_, ?_⟩
  · show stream.length = (w.base + drop + (w.len - drop)) * stride
    rw [h.length, Nat.add_assoc, Nat.add_sub_cancel' hdrop]
  · show (w.len - drop) * stride ≤ List.length (_ ++ _)
    rw [List.length_append, htaken]
    exact Nat.le_add_right _ _
  · show List.take ((w.len - drop) * stride) (_ ++ _) = _
    -- the moved frames are a prefix of exactly that length
    rw [List.take_left' htaken]
    show _ = stream.drop ((w.base + drop) * stride)
    rw [Nat.add_mul, ← List.drop_drop, ← h.kept, ← hsplit, List.drop_take,
      Nat.add_sub_cancel_left]

/-- Appending whole frames keeps the window in step with the stream. -/
theorem Holds.append (h : w.Holds stride stream) {block : List α} {frames : ℕ}
    (hpos : 0 < stride) (hblock : block.length = frames * stride)
    (happ : w.append stride block = some w') : w'.Holds stride (stream ++ block) := by
  rw [StreamWindow.append] at happ
  split at happ
  case isFalse => exact absurd happ nofun
  case isTrue hroom =>
    obtain rfl := Option.some.inj happ
    have hframes : block.length / stride = frames := by
      rw [hblock, Nat.mul_div_cancel _ hpos]
    have htaken : (w.buffer.take (w.len * stride)).length = w.len * stride := by
      rw [List.length_take, Nat.min_eq_left h.fits]
    have hfront : (w.buffer.take (w.len * stride) ++ block).length =
        (w.len + frames) * stride := by
      rw [List.length_append, htaken, hblock, Nat.add_mul]
    refine ⟨?_, ?_, ?_⟩
    · show _ = (w.base + (w.len + block.length / stride)) * stride
      rw [List.length_append, h.length, hframes, hblock]
      ring
    · show (w.len + block.length / stride) * stride ≤ List.length (_ ++ _)
      rw [hframes, List.length_append, hfront]
      exact Nat.le_add_right _ _
    · show List.take ((w.len + block.length / stride) * stride) (_ ++ _) = _
      rw [hframes, List.take_left' hfront, h.kept]
      show _ = (stream ++ block).drop (w.base * stride)
      rw [List.drop_append_of_le_length]
      rw [h.length, Nat.add_mul]
      exact Nat.le_add_right _ _

/-- What is not discarded and has come is read as from the stream. -/
theorem Holds.read_eq (h : w.Holds stride stream) (zero : α) {idx : ℤ} {c : ℕ} (hc : c < stride)
    (hbase : 0 ≤ idx → w.base ≤ idx) (hend : idx < w.base + w.len) :
    w.read zero stride idx c = streamRead zero stride stream idx c := by
  have hpos : 0 < stride := by omega
  have hframes : stream.length / stride = w.base + w.len := by
    rw [h.length, Nat.mul_div_cancel _ hpos]
  rw [read, streamRead, hframes]
  by_cases hneg : idx < 0
  · rw [if_pos (by omega), if_neg (by omega)]
  · have hle := hbase (by omega)
    obtain ⟨i, rfl⟩ : ∃ i : ℕ, idx = w.base + i := ⟨(idx - w.base).toNat, by omega⟩
    rw [if_neg (by omega), if_pos (by omega)]
    have hat : ((w.base : ℤ) + i - w.base).toNat = i := by omega
    have hto : ((w.base : ℤ) + i).toNat = w.base + i := by omega
    rw [hat, hto]
    -- the value is in the part of the buffer that is kept
    have hlt : i * stride + c < w.len * stride := by
      have hle : (i + 1) * stride ≤ w.len * stride := Nat.mul_le_mul_right _ (by omega)
      linarith [hle, Nat.add_mul i 1 stride]
    have hkept : (w.buffer.take (w.len * stride))[i * stride + c]? =
        (stream.drop (w.base * stride))[i * stride + c]? := by rw [h.kept]
    rw [List.getElem?_take_of_lt hlt, List.getElem?_drop] at hkept
    rw [List.getD_eq_getElem?_getD, List.getD_eq_getElem?_getD, hkept]
    congr 2
    ring

end StreamWindow
