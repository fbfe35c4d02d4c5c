import ArbitraryComposer.Contract.AudioFacet
import ArbitraryComposer.ToMathlib.Machine
import ArbitraryComposer.ToMathlib.SequenceLock

/-!
# The Ring of Prepared Blocks

The producer publishes mixed blocks into the slots of a ring and retires them; the callback drains a
block by its index. A slot is guarded by a sequence lock, so the callback takes no lock: it copies
what the slot holds and looks at the generation again. Every atomic access is a step of its own, and
the steps of the producer and of the callback interleave in any way.

## Main definitions

- `SlotWrite`: a publication or a retirement, as the stores it makes.
- `RingState.drainStep`: one access of `drain`.
- `preparedRing`: the producer and the callback.
- `RingRecord`, `recordedRing`: what was written to the ring, and what a copy began from.
- `Untorn`: a block that is drained is one publication; else there is silence and one underrun.

## Main results

- `preparedRing_untorn`: what a drain returns, where its buffer is of the size of a block.
- `length_drain_le`: a drain returns after a bounded number of its own steps.
- `not_preparedRing_untorn`: a buffer of another size is reported as drained, and is not written.
-/

namespace ArbitraryComposer

/-! ## Slots -/

/-- The sizes of a ring: `LookaheadRingConfig`. -/
structure RingShape where
  /-- Frames of a block. -/
  blockFrames : UInt32
  /-- The channels. -/
  layout : ChannelLayout
  /-- The slots; zero for the default. -/
  ringCapacity : ℕ
  deriving DecidableEq

namespace RingShape

/-- `k_default_ring_capacity`. -/
def defaultCapacity : ℕ := 4096

/-- `d_capacity`. -/
def capacity (shape : RingShape) : ℕ :=
  if shape.ringCapacity ≠ 0 then shape.ringCapacity else defaultCapacity

/-- Samples of a slot. -/
def blockSamples (shape : RingShape) : ℕ := shape.blockFrames.toNat * shape.layout.channelCount

/-- `slot_at`. -/
def slotAt (shape : RingShape) (index : Int64) : ℕ :=
  ((index.toInt.tmod shape.capacity + shape.capacity).tmod shape.capacity).toNat

end RingShape

/-- `k_empty_slot`. -/
def emptySlot : Int64 := Int64.minValue

/-- What the generation of a slot guards. -/
structure SlotPayload (φ : Type) where
  /-- The samples, interleaved. -/
  samples : List φ
  /-- `AudioResult::achieved_rate`. -/
  achievedRate : UInt32
  /-- `AudioResult::exact`. -/
  exact : Bool
  /-- The block that was published here, or `emptySlot`. -/
  index : Int64

/-- A store into a slot. -/
inductive PayloadStore (φ : Type) where
  /-- One sample. -/
  | sample (i : ℕ) (x : φ)
  /-- The rate. -/
  | achievedRate (rate : UInt32)
  /-- Whether the block is exact. -/
  | exact (exact : Bool)
  /-- The block. -/
  | index (index : Int64)

/-- A store, carried out. -/
def PayloadStore.apply {φ : Type} : PayloadStore φ → SlotPayload φ → SlotPayload φ
  | .sample i x, p => { p with samples := p.samples.set i x }
  | .achievedRate rate, p => { p with achievedRate := rate }
  | .exact ex, p => { p with exact := ex }
  | .index i, p => { p with index := i }

/-- A call of `publish_slot` or of `retire_slot`. -/
inductive SlotWrite (φ : Type) where
  /-- A mixed block, with what the mix answered. -/
  | publish (index : Int64) (samples : List φ) (result : AudioResult)
  /-- A slot is emptied. -/
  | retire (slot : ℕ)
  deriving DecidableEq

/-- The slot that is written. -/
def SlotWrite.slot {φ : Type} (shape : RingShape) : SlotWrite φ → ℕ
  | .publish index _ _ => shape.slotAt index
  | .retire slot => slot

/-- The stores between the two moves of the generation, in order. -/
def SlotWrite.stores {φ : Type} : SlotWrite φ → List (PayloadStore φ)
  | .publish index samples result =>
    (samples.zipIdx.map fun (x, i) => .sample i x) ++
      [.achievedRate result.achievedRate, .exact result.exact, .index index]
  | .retire _ => [.index emptySlot]

/-! ## The producer and the callback -/

/-- `AudioBlock`: the buffer of a drain. -/
structure DrainBlock (φ : Type) where
  /-- The samples; `none` is the null pointer. -/
  samples : Option (List φ)
  /-- Frames of the buffer. -/
  frames : UInt32
  /-- Its channels. -/
  layout : ChannelLayout
  /-- Its rate. -/
  rate : UInt32
  /-- The buffer is as long as it says. -/
  size_eq : ∀ l ∈ samples, l.length = frames.toNat * layout.channelCount

namespace DrainBlock

variable {φ : Type} (out : DrainBlock φ)

/-- Samples of the buffer. -/
def size : ℕ := out.frames.toNat * out.layout.channelCount

/-- A sample of a slot is copied. -/
def copySample (source : List φ) (i : ℕ) : DrainBlock φ where
  samples := out.samples.map fun l =>
    match source[i]? with
    | some x => l.set i x
    | none => l
  frames := out.frames
  layout := out.layout
  rate := out.rate
  size_eq := by
    intro l hl
    obtain ⟨l₀, hl₀, rfl⟩ := Option.map_eq_some_iff.mp hl
    cases source[i]? with
    | none => exact out.size_eq l₀ hl₀
    | some x => exact (List.length_set).trans (out.size_eq l₀ hl₀)

/-- The buffer is filled with silence. -/
def silenced [Zero φ] : DrainBlock φ where
  samples := out.samples.map fun l => List.replicate l.length 0
  frames := out.frames
  layout := out.layout
  rate := out.rate
  size_eq := by
    intro l hl
    obtain ⟨l₀, hl₀, rfl⟩ := Option.map_eq_some_iff.mp hl
    exact List.length_replicate.trans (out.size_eq l₀ hl₀)

end DrainBlock

/-- The producer. -/
inductive Producer (φ : Type) where
  /-- It writes no slot. -/
  | idle
  /-- It writes one; some stores remain, then that of the generation. -/
  | writing (write : SlotWrite φ) (found : UInt64) (pending : List (PayloadStore φ))

/-- Where `drain` is, with its locals. -/
inductive DrainPoint where
  /-- Nothing is drained yet. -/
  | idle
  /-- Before the generation is loaded. -/
  | generation (attempt : ℕ)
  /-- Before the index is loaded. -/
  | index (attempt : ℕ) (s1 : UInt64)
  /-- Before the rate is loaded. -/
  | achievedRate (attempt : ℕ) (s1 : UInt64) (held : Int64)
  /-- Before the exactness is loaded. -/
  | exact (attempt : ℕ) (s1 : UInt64) (held : Int64) (ar : UInt32)
  /-- In the loop that copies samples. -/
  | copy (attempt : ℕ) (s1 : UInt64) (held : Int64) (ar : UInt32) (ex : Bool) (i : ℕ)
  /-- Before the generation is loaded again. -/
  | validate (attempt : ℕ) (s1 : UInt64) (held : Int64) (ar : UInt32) (ex : Bool)
  /-- Before the buffer is filled with silence. -/
  | underrun
  /-- It has returned. -/
  | returned (ok : Bool) (result : AudioResult)
  deriving DecidableEq

/-- `k_attempts`. -/
def drainAttempts : ℕ := 4

/-- A `continue` of the loop over attempts. -/
def DrainPoint.retry (attempt : ℕ) : DrainPoint :=
  if attempt + 1 < drainAttempts then .generation (attempt + 1) else .underrun

/-- A call of `drain` is in progress. -/
def DrainPoint.active : DrainPoint → Bool
  | .idle | .returned _ _ => false
  | _ => true

/-- The ring, its producer and its callback. -/
structure RingState (φ : Type) where
  /-- `d_slots`. -/
  slots : ℕ → SequenceLock (SlotPayload φ)
  /-- The producer. -/
  producer : Producer φ
  /-- The callback. -/
  drain : DrainPoint
  /-- The block that is drained. -/
  index : Int64
  /-- The buffer it is drained into. -/
  out : DrainBlock φ
  /-- `d_underruns`. -/
  underruns : ℕ

namespace RingState

variable {φ : Type} [Zero φ] (shape : RingShape) (s : RingState φ)

/-- A ring in which nothing is prepared. -/
def new (out : DrainBlock φ) : RingState φ where
  slots _ := ⟨⟨List.replicate shape.blockSamples 0, 0, false, emptySlot⟩, 0⟩
  producer := .idle
  drain := .idle
  index := emptySlot
  out := out
  underruns := 0

/-- A slot is changed. -/
def setSlot (k : ℕ) (slot : SequenceLock (SlotPayload φ)) : RingState φ :=
  { s with slots := fun k' => if k' = k then slot else s.slots k' }

/-- The first statement of `publish_slot` and `retire_slot`. -/
def beginWrite (write : SlotWrite φ) : RingState φ :=
  let slot := s.slots (write.slot shape)
  { s.setSlot (write.slot shape) { slot with seq := slot.seq + 1 } with
    producer := .writing write slot.seq write.stores }

/-- The next store of a write; the last one is that of the generation. -/
def producerStep : Option (RingState φ) :=
  match s.producer with
  | .idle => none
  | .writing write found (store :: pending) =>
    let slot := s.slots (write.slot shape)
    some { s.setSlot (write.slot shape) { slot with payload := store.apply slot.payload } with
      producer := .writing write found pending }
  | .writing write found [] =>
    let slot := s.slots (write.slot shape)
    some { s.setSlot (write.slot shape) { slot with seq := found + 2 } with producer := .idle }

/-- The slot that is drained. -/
def drained : SequenceLock (SlotPayload φ) := s.slots (shape.slotAt s.index)

/-- The next access of `drain`. -/
def drainStep : Option (RingState φ) :=
  let slot := s.drained shape
  match s.drain with
  | .idle | .returned _ _ => none
  | .generation attempt =>
    some { s with
      drain := if slot.seq % 2 ≠ 0 then .retry attempt else .index attempt slot.seq }
  | .index attempt s1 => some { s with drain := .achievedRate attempt s1 slot.payload.index }
  | .achievedRate attempt s1 held =>
    some { s with drain := .exact attempt s1 held slot.payload.achievedRate }
  | .exact attempt s1 held ar =>
    some { s with
      drain :=
        if held = s.index ∧ s.out.samples.isSome ∧ slot.payload.samples.length = s.out.size then
          .copy attempt s1 held ar slot.payload.exact 0
        else .validate attempt s1 held ar slot.payload.exact }
  | .copy attempt s1 held ar ex i =>
    if i < s.out.size then
      some { s with
        out := s.out.copySample slot.payload.samples i
        drain := .copy attempt s1 held ar ex (i + 1) }
    else some { s with drain := .validate attempt s1 held ar ex }
  | .validate attempt s1 held ar ex =>
    some { s with
      drain :=
        if slot.seq ≠ s1 then .retry attempt
        else if held = s.index then .returned true ⟨ar, ex⟩
        else .underrun }
  | .underrun =>
    some { s with
      out := s.out.silenced
      drain := .returned false ⟨s.out.rate, true⟩
      underruns := s.underruns + 1 }

end RingState

/-- What can happen next. -/
inductive RingEvent (φ : Type) where
  /-- The producer begins to publish the block it has mixed, or to retire a slot. -/
  | beginWrite (write : SlotWrite φ)
  /-- The producer makes its next store. -/
  | producerStep
  /-- The callback calls `drain`. -/
  | drain (index : Int64) (out : DrainBlock φ)
  /-- The callback makes its next access. -/
  | drainStep

/-- A published block has the size of a slot, and a slot that is retired is one of the ring. -/
def SlotWrite.Fits {φ : Type} (shape : RingShape) : SlotWrite φ → Prop
  | .publish _ samples _ => samples.length = shape.blockSamples
  | .retire slot => slot < shape.capacity

instance {φ : Type} (shape : RingShape) (write : SlotWrite φ) : Decidable (write.Fits shape) := by
  cases write
  · exact inferInstanceAs (Decidable (_ = _))
  · exact inferInstanceAs (Decidable (_ < _))

/-- The producer and the callback. -/
def preparedRing {φ : Type} [Zero φ] (shape : RingShape) : Machine (RingState φ) (RingEvent φ) where
  start s := ∃ out, s = .new shape out
  step
    | .beginWrite write, s =>
      match s.producer with
      | .idle => if write.Fits shape then some (s.beginWrite shape write) else none
      | .writing _ _ _ => none
    | .producerStep, s => s.producerStep shape
    | .drain index out, s =>
      if s.drain.active then none
      else some { s with drain := .generation 0, index := index, out := out }
    | .drainStep, s => s.drainStep shape

/-! ## The history of the ring -/

/-- The history of a ring. -/
structure RingRecord (φ : Type) where
  /-- What every slot has seen. -/
  tracks : ℕ → SequenceLock.Track (SlotPayload φ)
  /-- The finished writes, the last one first. -/
  log : List (SlotWrite φ)
  /-- What the drained slot had seen when the attempt began. -/
  begun : SequenceLock.Track (SlotPayload φ)
  /-- The writes that were finished when the attempt began. -/
  begunLog : List (SlotWrite φ)
  /-- The underruns before the call. -/
  underrunsBefore : ℕ

namespace RingRecord

variable {φ : Type} [Zero φ] (shape : RingShape)

/-- A ring in which nothing was written. -/
def new : RingRecord φ where
  tracks _ := ⟨0, ⟨List.replicate shape.blockSamples 0, 0, false, emptySlot⟩⟩
  log := []
  begun := ⟨0, ⟨List.replicate shape.blockSamples 0, 0, false, emptySlot⟩⟩
  begunLog := []
  underrunsBefore := 0

/-- A slot sees something. -/
def setTrack (r : RingRecord φ) (k : ℕ) (t : SequenceLock.Track (SlotPayload φ)) : RingRecord φ :=
  { r with tracks := fun k' => if k' = k then t else r.tracks k' }

/-- What a step adds to the history. -/
def update (e : RingEvent φ) (s : RingState φ) (r : RingRecord φ) : RingRecord φ :=
  match e with
  | .beginWrite write =>
    let t := r.tracks (write.slot shape)
    r.setTrack (write.slot shape) { t with generation := t.generation + 1 }
  | .producerStep =>
    match s.producer with
    | .writing write _ [] =>
      let t := r.tracks (write.slot shape)
      { r.setTrack (write.slot shape)
          ⟨t.generation + 1, (s.slots (write.slot shape)).payload⟩ with
        log := write :: r.log }
    | _ => r
  | .drain _ _ => { r with underrunsBefore := s.underruns }
  | .drainStep =>
    match s.drain with
    | .generation _ =>
      { r with begun := r.tracks (shape.slotAt s.index), begunLog := r.log }
    | _ => r

end RingRecord

/-- The ring with its history. -/
def recordedRing {φ : Type} [Zero φ] (shape : RingShape) :
    Machine (RingState φ × RingRecord φ) (RingEvent φ) :=
  (preparedRing shape).observe (fun _ => .new shape) fun e s _ r => r.update shape e s

/-- The last finished write of a slot. -/
def lastWrite {φ : Type} (shape : RingShape) (k : ℕ) (log : List (SlotWrite φ)) :
    Option (SlotWrite φ) :=
  log.find? fun write => write.slot shape = k

theorem lastWrite_cons {φ : Type} (shape : RingShape) (k : ℕ) (write : SlotWrite φ)
    (log : List (SlotWrite φ)) : lastWrite shape k (write :: log) =
      if k = write.slot shape then some write else lastWrite shape k log := by
  rw [lastWrite, List.find?_cons]
  by_cases hk : k = write.slot shape
  · rw [if_pos hk, decide_eq_true hk.symm]
  · rw [if_neg hk, decide_eq_false fun heq => hk heq.symm]
    rfl

/-- What `drain` promises: a block that is drained is, as a whole, the last publication of its slot
when the copy began, and one of the block that was asked for; else there is silence and one underrun
more. -/
def Untorn {φ : Type} [Zero φ] (shape : RingShape) (p : RingState φ × RingRecord φ) : Prop :=
  match p.1.drain with
  | .returned true result =>
    ∃ samples, p.1.out.samples = some samples ∧
      lastWrite shape (shape.slotAt p.1.index) p.2.begunLog =
        some (.publish p.1.index samples result) ∧
      p.2.begunLog <:+ p.2.log ∧ p.1.underruns = p.2.underrunsBefore
  | .returned false result =>
    (∀ samples, p.1.out.samples = some samples → ∀ x ∈ samples, x = 0) ∧
      result = ⟨p.1.out.rate, true⟩ ∧ p.1.underruns = p.2.underrunsBefore + 1
  | _ => True

/-- A drain that is about to report a block has a buffer of the size of a slot, for a block that can
be published, and the generation has not come round since the attempt began. -/
def CleanDrain {φ : Type} (shape : RingShape) (e : RingEvent φ) (p : RingState φ × RingRecord φ) :
    Prop :=
  match e, p.1.drain with
  | .drainStep, .validate _ s1 held _ _ =>
    (p.1.drained shape).seq = s1 → held = p.1.index →
      (p.1.out.samples.isSome ∧ p.1.out.size = shape.blockSamples) ∧ p.1.index ≠ emptySlot ∧
        (p.2.tracks (shape.slotAt p.1.index)).generation < p.2.begun.generation + 2 ^ 64
  | _, _ => True

/-! ## Writes -/

section Writes

variable {φ : Type} {shape : RingShape} {p : SlotPayload φ} {write : SlotWrite φ}

/-- Stores, carried out in order. -/
def applyStores (stores : List (PayloadStore φ)) (p : SlotPayload φ) : SlotPayload φ :=
  stores.foldl (fun p store => store.apply p) p

/-- A slot holds what a write leaves in it; without a write, nothing. -/
def SlotPayload.Holds (p : SlotPayload φ) : Option (SlotWrite φ) → Prop
  | some (.publish index samples result) =>
    p = ⟨samples, result.achievedRate, result.exact, index⟩
  | _ => p.index = emptySlot

theorem length_apply (store : PayloadStore φ) (p : SlotPayload φ) :
    (store.apply p).samples.length = p.samples.length := by
  cases store with
  | sample i x => exact List.length_set
  | achievedRate rate => rfl
  | exact ex => rfl
  | index i => rfl

/-- The loop that stores samples. -/
private theorem applyStores_samples (samples before old : List φ)
    (hp : p.samples = before ++ old) (hlength : old.length = samples.length) :
    applyStores ((samples.zipIdx before.length).map fun (x, i) => PayloadStore.sample i x) p =
      { p with samples := before ++ samples } := by
  induction samples generalizing before old p with
  | nil =>
    rw [List.length_eq_zero_iff.mp hlength] at hp
    rw [← hp]
    rfl
  | cons x samples ih =>
    obtain ⟨y, old, rfl⟩ := List.exists_cons_of_length_eq_add_one hlength
    have hset : ((PayloadStore.sample before.length x).apply p).samples =
        (before ++ [x]) ++ old := by
      show p.samples.set before.length x = _
      rw [hp, List.set_append_right _ _ (Nat.le_refl _), Nat.sub_self, List.set_cons_zero,
        List.append_assoc]
      rfl
    have hnext := ih (before ++ [x]) old hset (by simpa using hlength)
    rw [List.length_append, List.length_singleton] at hnext
    rw [List.zipIdx_cons, List.map_cons]
    show applyStores _ ((PayloadStore.sample before.length x).apply p) = _
    rw [hnext, List.append_assoc]
    rfl

/-- What a write leaves in a slot. -/
theorem holds_applyStores (hsize : p.samples.length = shape.blockSamples)
    (hfits : write.Fits shape) : (applyStores write.stores p).Holds (some write) := by
  cases write with
  | publish index samples result =>
    have hcopied := applyStores_samples samples [] p.samples rfl
      (hsize.trans (Eq.symm hfits))
    show applyStores _ p = _
    rw [SlotWrite.stores, applyStores, List.foldl_append]
    rw [applyStores] at hcopied
    rw [List.length_nil, List.nil_append] at hcopied
    rw [hcopied]
    rfl
  | retire slot => rfl

end Writes

/-! ## The invariant -/

section Invariant

variable {φ : Type} [Zero φ] (shape : RingShape) (p : RingState φ × RingRecord φ)

/-- What the drained slot has seen. -/
def RingRecord.drained (r : RingRecord φ) (index : Int64) : SequenceLock.Track (SlotPayload φ) :=
  r.tracks (shape.slotAt index)

/-- Nothing was written to the drained slot since the attempt began. -/
def Same : Prop := (p.2.drained shape p.1.index).generation = p.2.begun.generation

/-- An attempt began, at an even generation. -/
structure Begun (s1 : UInt64) : Prop where
  /-- The generation that was loaded. -/
  seq_eq : s1 = UInt64.ofNat p.2.begun.generation
  /-- No write was in progress. -/
  even : p.2.begun.generation % 2 = 0
  /-- The history of the slot goes on from there. -/
  goesOn : (p.2.drained shape p.1.index).Extends p.2.begun
  /-- What the slot held then is what was last written. -/
  holds : p.2.begun.settled.Holds (lastWrite shape (shape.slotAt p.1.index) p.2.begunLog)
  /-- Writes are only added to the history. -/
  log : p.2.begunLog <:+ p.2.log

/-- What is known of the locals of `drain`: while nothing is written, they are what the slot held
when the attempt began. -/
def DrainInv : Prop :=
  match p.1.drain with
  | .index _ s1 => Begun shape p s1
  | .achievedRate _ s1 held => Begun shape p s1 ∧ (Same shape p → held = p.2.begun.settled.index)
  | .exact _ s1 held ar => Begun shape p s1 ∧
    (Same shape p → held = p.2.begun.settled.index ∧ ar = p.2.begun.settled.achievedRate)
  | .copy _ s1 held ar ex i => Begun shape p s1 ∧
    (Same shape p → held = p.2.begun.settled.index ∧ ar = p.2.begun.settled.achievedRate ∧
      ex = p.2.begun.settled.exact) ∧
    p.1.out.size = shape.blockSamples ∧ ∃ l, p.1.out.samples = some l ∧
      (Same shape p → ∀ j < i, l[j]? = p.2.begun.settled.samples[j]?)
  | .validate _ s1 held ar ex => Begun shape p s1 ∧
    (Same shape p → held = p.2.begun.settled.index ∧ ar = p.2.begun.settled.achievedRate ∧
      ex = p.2.begun.settled.exact) ∧
    (Same shape p → held = p.1.index → p.1.out.samples.isSome →
      p.1.out.size = shape.blockSamples → p.1.out.samples = some p.2.begun.settled.samples)
  | .returned _ _ => Untorn shape p
  | _ => True

/-- The locks of the slots: one may be in the middle of a write. -/
def LocksInv : Prop :=
  match p.1.producer with
  | .idle => ∀ k, SequenceLock.Rest (p.1.slots k) (p.2.tracks k)
  | .writing write found pending =>
    (SequenceLock.Busy (p.1.slots (write.slot shape)) (p.2.tracks (write.slot shape)) found ∧
      (applyStores pending (p.1.slots (write.slot shape)).payload).Holds (some write)) ∧
    ∀ k ≠ write.slot shape, SequenceLock.Rest (p.1.slots k) (p.2.tracks k)

/-- The invariant of the ring. -/
structure RingInv : Prop where
  /-- No buffer is ever resized. -/
  size : ∀ k, (p.1.slots k).payload.samples.length = shape.blockSamples
  /-- The locks are sound. -/
  locks : LocksInv shape p
  /-- A slot at rest holds what was last written to it. -/
  settled : ∀ k, (p.2.tracks k).settled.Holds (lastWrite shape k p.2.log)
  /-- The callback. -/
  drain : DrainInv shape p
  /-- An underrun is counted when `drain` returns. -/
  underruns : p.1.drain.active = true → p.1.underruns = p.2.underrunsBefore

variable {shape p}

omit [Zero φ] in
theorem LocksInv.rest_or_busy (h : LocksInv shape p) (k : ℕ) :
    SequenceLock.Rest (p.1.slots k) (p.2.tracks k) ∨
      ∃ found, SequenceLock.Busy (p.1.slots k) (p.2.tracks k) found := by
  rw [LocksInv] at h
  split at h
  · exact Or.inl (h k)
  · rename_i write found pending _
    by_cases hk : k = write.slot shape
    · exact Or.inr ⟨found, hk ▸ h.1.1⟩
    · exact Or.inl (h.2 k hk)

/-- While nothing is written, the drained slot holds what it held when the attempt began. -/
theorem RingInv.payload_eq {s1 : UInt64} (h : RingInv shape p) (hbegun : Begun shape p s1)
    (hsame : Same shape p) : (p.1.drained shape).payload = p.2.begun.settled := by
  have heven := hbegun.even
  rcases h.locks.rest_or_busy (shape.slotAt p.1.index) with hrest | ⟨found, hbusy⟩
  · exact hrest.payload_eq.trans (hbegun.goesOn.settled_eq hsame)
  · have hodd := hbusy.odd
    rw [Same, RingRecord.drained] at hsame
    omega

end Invariant

/-! ## The producer -/

section ProducerSteps

variable {φ : Type} [Zero φ] {shape : RingShape} {s s' : RingState φ} {r r' : RingRecord φ}

/-- The producer goes on while the callback does nothing. -/
structure Extended (s' s : RingState φ) (r' r : RingRecord φ) : Prop where
  /-- The callback is where it was. -/
  callback : s'.drain = s.drain ∧ s'.index = s.index ∧ s'.out = s.out ∧
    s'.underruns = s.underruns
  /-- So is its history. -/
  begun : r'.begun = r.begun ∧ r'.begunLog = r.begunLog ∧ r'.underrunsBefore = r.underrunsBefore
  /-- Writes are only added. -/
  log : r.log <:+ r'.log
  /-- Slots only see more. -/
  tracks : ∀ k, (r'.tracks k).Extends (r.tracks k)

/-- What the callback knows stays true while the producer goes on. -/
theorem DrainInv.extend (h : DrainInv shape (s, r)) (he : Extended s' s r' r) :
    DrainInv shape (s', r') := by
  obtain ⟨⟨hdrain, hindex, hout, hunder⟩, ⟨hb, hbl, hub⟩, hlog, htracks⟩ := he
  have hsame : Same shape (s', r') → Same shape (s, r) ∨ ¬ r.begun.generation ≤
      (r.drained shape s.index).generation := by
    intro hsame
    have hle := (htracks (shape.slotAt s.index)).le
    simp only [Same, RingRecord.drained, hb, hindex] at hsame ⊢
    omega
  have hbegun : ∀ {s1}, Begun shape (s, r) s1 → Begun shape (s', r') s1 ∧
      (Same shape (s', r') → Same shape (s, r)) := by
    intro s1 hs1
    refine ⟨⟨?_, ?_, ?_, ?_, ?_⟩, fun hs => (hsame hs).resolve_right fun hn => hn hs1.goesOn.le⟩
    · exact hb ▸ hs1.seq_eq
    · exact hb ▸ hs1.even
    · show (r'.tracks (shape.slotAt s'.index)).Extends r'.begun
      rw [hb, hindex]
      exact (htracks _).trans hs1.goesOn
    · show r'.begun.settled.Holds (lastWrite shape (shape.slotAt s'.index) r'.begunLog)
      rw [hb, hbl, hindex]
      exact hs1.holds
    · show r'.begunLog <:+ r'.log
      rw [hbl]
      exact hs1.log.trans hlog
  rw [DrainInv] at h ⊢
  simp only [hdrain, hindex, hout, hb] at h ⊢
  cases hpoint : s.drain with
  | idle => trivial
  | generation attempt => trivial
  | underrun => trivial
  | index attempt s1 =>
    simp only [hpoint] at h ⊢
    exact (hbegun h).1
  | achievedRate attempt s1 held =>
    simp only [hpoint] at h ⊢
    exact ⟨(hbegun h.1).1, fun hs => h.2 ((hbegun h.1).2 hs)⟩
  | exact attempt s1 held ar =>
    simp only [hpoint] at h ⊢
    exact ⟨(hbegun h.1).1, fun hs => h.2 ((hbegun h.1).2 hs)⟩
  | copy attempt s1 held ar ex i =>
    simp only [hpoint] at h ⊢
    obtain ⟨h1, hlocals, hsize, l, hl, hcopied⟩ := h
    exact ⟨(hbegun h1).1, fun hs => hlocals ((hbegun h1).2 hs), hsize, l, hl,
      fun hs => hcopied ((hbegun h1).2 hs)⟩
  | validate attempt s1 held ar ex =>
    simp only [hpoint] at h ⊢
    obtain ⟨h1, hlocals, hcopied⟩ := h
    exact ⟨(hbegun h1).1, fun hs => hlocals ((hbegun h1).2 hs),
      fun hs => hcopied ((hbegun h1).2 hs)⟩
  | returned ok result =>
    simp only [hpoint] at h ⊢
    rw [Untorn] at h ⊢
    simp only [hdrain, hindex, hout, hunder, hbl, hub, hpoint] at h ⊢
    cases ok with
    | true =>
      obtain ⟨samples, hsamples, hlast, hsuffix, hcount⟩ := h
      exact ⟨samples, hsamples, hlast, hsuffix.trans hlog, hcount⟩
    | false => exact h

omit [Zero φ] in
/-- The counts of underruns stay as they are while the producer goes on. -/
theorem Extended.underruns (he : Extended s' s r' r)
    (h : s.drain.active = true → s.underruns = r.underrunsBefore) :
    s'.drain.active = true → s'.underruns = r'.underrunsBefore := by
  rw [he.callback.1, he.callback.2.2.2, he.begun.2.2]
  exact h

/-- A write begins. -/
theorem RingInv.beginWrite {write : SlotWrite φ} (h : RingInv shape (s, r))
    (hidle : s.producer = .idle) (hfits : write.Fits shape) :
    RingInv shape (s.beginWrite shape write, r.update shape (.beginWrite write) s) := by
  have he : Extended (s.beginWrite shape write) s (r.update shape (.beginWrite write) s) r := by
    refine ⟨⟨rfl, rfl, rfl, rfl⟩, ⟨rfl, rfl, rfl⟩, List.suffix_rfl, fun k => ?_⟩
    show SequenceLock.Track.Extends (if k = write.slot shape then _ else r.tracks k) (r.tracks k)
    split
    · rename_i hk
      rw [hk]
      exact (SequenceLock.Track.Extends.refl _).moved _
    · exact SequenceLock.Track.Extends.refl _
  have hrest : ∀ k, SequenceLock.Rest (s.slots k) (r.tracks k) := by
    have hlocks := h.locks
    rw [LocksInv] at hlocks
    simpa only [hidle] using hlocks
  refine ⟨fun k => ?_, ⟨⟨?_, ?_⟩, fun k hk => ?_⟩, fun k => ?_, h.drain.extend he,
    he.underruns h.underruns⟩
  · show (if k = write.slot shape then _ else s.slots k).payload.samples.length = _
    split
    · exact h.size _
    · exact h.size k
  · show SequenceLock.Busy (if _ then _ else _) (if _ then _ else _) _
    rw [if_pos rfl, if_pos rfl]
    exact (hrest _).begin
  · show (applyStores write.stores (SequenceLock.payload (if _ then _ else _))).Holds _
    rw [if_pos rfl]
    exact holds_applyStores (h.size _) hfits
  · show SequenceLock.Rest (if k = _ then _ else _) (if k = _ then _ else _)
    rw [if_neg hk, if_neg hk]
    exact hrest k
  · show (if k = write.slot shape then _ else r.tracks k).settled.Holds _
    split
    · rename_i hk
      rw [hk]
      exact h.settled _
    · exact h.settled k

/-- A write makes a store. -/
theorem RingInv.store {write : SlotWrite φ} {found : UInt64} {store : PayloadStore φ}
    {pending : List (PayloadStore φ)} (h : RingInv shape (s, r))
    (hwriting : s.producer = .writing write found (store :: pending))
    (hs : s.producerStep shape = some s') :
    RingInv shape (s', r.update shape .producerStep s) := by
  rw [RingState.producerStep, hwriting] at hs
  cases hs
  have hr : r.update shape .producerStep s = r := by
    rw [RingRecord.update, hwriting]
  rw [hr]
  have hlocks := h.locks
  rw [LocksInv] at hlocks
  simp only [hwriting] at hlocks
  obtain ⟨⟨hbusy, hholds⟩, hrest⟩ := hlocks
  refine ⟨fun k => ?_, ⟨⟨?_, ?_⟩, fun k hk => ?_⟩, h.settled, h.drain.extend
    ⟨⟨rfl, rfl, rfl, rfl⟩, ⟨rfl, rfl, rfl⟩, List.suffix_rfl, fun k => .refl _⟩, h.underruns⟩
  · show (if k = write.slot shape then _ else s.slots k).payload.samples.length = _
    split
    · exact (length_apply store _).trans (h.size _)
    · exact h.size k
  · show SequenceLock.Busy (if _ then _ else _) _ _
    rw [if_pos rfl]
    exact hbusy.store _
  · show (applyStores pending (SequenceLock.payload (if _ then _ else _))).Holds _
    rw [if_pos rfl]
    exact hholds
  · show SequenceLock.Rest (if k = _ then _ else _) _
    rw [if_neg hk]
    exact hrest k hk

/-- A write is finished. -/
theorem RingInv.finish {write : SlotWrite φ} {found : UInt64} (h : RingInv shape (s, r))
    (hwriting : s.producer = .writing write found [])
    (hs : s.producerStep shape = some s') :
    RingInv shape (s', r.update shape .producerStep s) := by
  rw [RingState.producerStep, hwriting] at hs
  cases hs
  have hr : r.update shape .producerStep s =
      { r.setTrack (write.slot shape) ⟨(r.tracks (write.slot shape)).generation + 1,
          (s.slots (write.slot shape)).payload⟩ with log := write :: r.log } := by
    rw [RingRecord.update, hwriting]
  rw [hr]
  have hlocks := h.locks
  rw [LocksInv] at hlocks
  simp only [hwriting] at hlocks
  obtain ⟨⟨hbusy, hholds⟩, hrest⟩ := hlocks
  refine ⟨fun k => ?_, fun k => ?_, fun k => ?_, h.drain.extend
    ⟨⟨rfl, rfl, rfl, rfl⟩, ⟨rfl, rfl, rfl⟩, List.suffix_cons _ _, fun k => ?_⟩, h.underruns⟩
  · show (if k = write.slot shape then _ else s.slots k).payload.samples.length = _
    split
    · exact h.size _
    · exact h.size k
  · show SequenceLock.Rest (if k = write.slot shape then _ else _)
      (if k = write.slot shape then _ else _)
    by_cases hk : k = write.slot shape
    · rw [if_pos hk, if_pos hk]
      exact hbusy.finish
    · rw [if_neg hk, if_neg hk]
      exact hrest k hk
  · show (if k = write.slot shape then _ else r.tracks k).settled.Holds
      (lastWrite shape k (write :: r.log))
    rw [lastWrite_cons]
    by_cases hk : k = write.slot shape
    · rw [if_pos hk, if_pos hk]
      exact hholds
    · rw [if_neg hk, if_neg hk]
      exact h.settled k
  · show SequenceLock.Track.Extends (if k = write.slot shape then _ else r.tracks k) (r.tracks k)
    split
    · rename_i hk
      rw [hk]
      exact (SequenceLock.Track.Extends.refl _).moved _
    · exact SequenceLock.Track.Extends.refl _

end ProducerSteps

/-! ## The callback -/

section DrainSteps

variable {φ : Type} [Zero φ] {shape : RingShape} {s s' : RingState φ} {r : RingRecord φ}

/-- The callback writes nothing but its buffer, its locals and the counter. -/
theorem drainStep_frame (hs : s.drainStep shape = some s') :
    s'.slots = s.slots ∧ s'.producer = s.producer ∧ s'.index = s.index := by
  cases hd : s.drain with
  | copy attempt s1 held ar ex i =>
    simp only [RingState.drainStep, hd] at hs
    split at hs
    · cases hs
      exact ⟨rfl, rfl, rfl⟩
    · cases hs
      exact ⟨rfl, rfl, rfl⟩
  | idle | returned _ _ =>
    rw [RingState.drainStep, hd] at hs
    cases hs
  | generation _ | index _ _ | achievedRate _ _ _ | exact _ _ _ _ | validate _ _ _ _ _
  | underrun =>
    rw [RingState.drainStep, hd] at hs
    cases hs
    exact ⟨rfl, rfl, rfl⟩

omit [Zero φ] in
/-- The callback adds to the history only what its attempt begins from. -/
theorem update_drainStep_frame :
    (r.update shape .drainStep s).tracks = r.tracks ∧ (r.update shape .drainStep s).log = r.log ∧
      (r.update shape .drainStep s).underrunsBefore = r.underrunsBefore := by
  rw [RingRecord.update]
  split
  · exact ⟨rfl, rfl, rfl⟩
  · exact ⟨rfl, rfl, rfl⟩

omit [Zero φ] in
theorem update_drainStep_of_ne (h : ∀ attempt, s.drain ≠ .generation attempt) :
    r.update shape .drainStep s = r := by
  rw [RingRecord.update]
  split
  · rename_i attempt hpoint
    exact absurd hpoint (h attempt)
  · rfl

/-- Where a `continue` leads nothing is known. -/
private theorem drainInv_retry {attempt : ℕ} (h : s'.drain = .retry attempt) (r' : RingRecord φ) :
    DrainInv shape (s', r') := by
  unfold DrainPoint.retry at h
  split at h
  · simp only [DrainInv, h]
  · simp only [DrainInv, h]

/-- The first access of an attempt. -/
private theorem drainInv_generation {attempt : ℕ} (h : RingInv shape (s, r))
    (hpoint : s.drain = .generation attempt) (hs : s.drainStep shape = some s') :
    DrainInv shape (s', r.update shape .drainStep s) := by
  rw [RingState.drainStep, hpoint] at hs
  cases hs
  by_cases heven : (s.drained shape).seq % 2 ≠ 0
  · exact drainInv_retry (if_pos heven) _
  have hr : r.update shape .drainStep s =
      { r with begun := r.tracks (shape.slotAt s.index), begunLog := r.log } := by
    rw [RingRecord.update, hpoint]
  have hseq : (s.drained shape).seq =
      UInt64.ofNat (r.tracks (shape.slotAt s.index)).generation := by
    rcases h.locks.rest_or_busy (shape.slotAt s.index) with hrest | ⟨found, hbusy⟩
    · exact hrest.seq_eq
    · exact hbusy.seq_eq
  rw [hr, DrainInv]
  dsimp only
  rw [if_neg heven]
  exact ⟨hseq, (SequenceLock.even_seq_iff hseq).mp (not_not.mp heven), .refl _, h.settled _,
    List.suffix_rfl⟩

/-- The loads of an attempt. -/
private theorem drainInv_loads (h : RingInv shape (s, r)) (hs : s.drainStep shape = some s')
    (hpoint : match s.drain with
      | .index _ _ | .achievedRate _ _ _ | .exact _ _ _ _ => True
      | _ => False) :
    DrainInv shape (s', r) := by
  have hinv := h.drain
  rw [DrainInv] at hinv
  unfold RingState.drainStep at hs
  cases hd : s.drain with
  | index attempt s1 =>
    simp only [hd] at hs hinv
    cases hs
    refine ⟨⟨hinv.seq_eq, hinv.even, hinv.goesOn, hinv.holds, hinv.log⟩, fun hsame => ?_⟩
    exact congrArg SlotPayload.index (h.payload_eq hinv hsame)
  | achievedRate attempt s1 held =>
    simp only [hd] at hs hinv
    cases hs
    obtain ⟨hbegun, hheld⟩ := hinv
    refine ⟨⟨hbegun.seq_eq, hbegun.even, hbegun.goesOn, hbegun.holds, hbegun.log⟩,
      fun hsame => ⟨hheld hsame, ?_⟩⟩
    exact congrArg SlotPayload.achievedRate (h.payload_eq hbegun hsame)
  | exact attempt s1 held ar =>
    simp only [hd] at hs hinv
    cases hs
    obtain ⟨hbegun, hlocals⟩ := hinv
    have hlocals' : Same shape (s, r) → held = r.begun.settled.index ∧
        ar = r.begun.settled.achievedRate ∧
          (s.drained shape).payload.exact = r.begun.settled.exact := fun hsame =>
      ⟨(hlocals hsame).1, (hlocals hsame).2,
        congrArg SlotPayload.exact (h.payload_eq hbegun hsame)⟩
    have hbegun' : ∀ point, Begun shape ({ s with drain := point }, r) s1 := fun point =>
      ⟨hbegun.seq_eq, hbegun.even, hbegun.goesOn, hbegun.holds, hbegun.log⟩
    rw [DrainInv]
    dsimp only
    by_cases hcopy : held = s.index ∧ s.out.samples.isSome ∧
        (s.drained shape).payload.samples.length = s.out.size
    · rw [if_pos hcopy]
      obtain ⟨l, hl⟩ := Option.isSome_iff_exists.mp hcopy.2.1
      exact ⟨hbegun' _, hlocals', hcopy.2.2.symm.trans (h.size _), l, hl,
        fun _ j hj => absurd hj (Nat.not_lt_zero j)⟩
    · rw [if_neg hcopy]
      refine ⟨hbegun' _, hlocals', fun _ hheld hsome hsize => absurd ?_ hcopy⟩
      exact ⟨hheld, hsome, (h.size _).trans hsize.symm⟩
  | idle => simp only [hd] at hpoint
  | generation attempt => simp only [hd] at hpoint
  | copy attempt s1 held ar ex i => simp only [hd] at hpoint
  | validate attempt s1 held ar ex => simp only [hd] at hpoint
  | underrun => simp only [hd] at hpoint
  | returned ok result => simp only [hd] at hpoint

/-- The loop that copies samples. -/
private theorem drainInv_copy {attempt i : ℕ} {s1 : UInt64} {held : Int64} {ar : UInt32}
    {ex : Bool} (h : RingInv shape (s, r)) (hpoint : s.drain = .copy attempt s1 held ar ex i)
    (hs : s.drainStep shape = some s') : DrainInv shape (s', r) := by
  have hinv := h.drain
  rw [DrainInv] at hinv
  unfold RingState.drainStep at hs
  simp only [hpoint] at hs hinv
  obtain ⟨hbegun, hlocals, hsize, l, hl, hcopied⟩ := hinv
  have hlength : l.length = s.out.size := s.out.size_eq l (Option.mem_def.mpr hl)
  have hslot : (s.drained shape).payload.samples.length = s.out.size :=
    (h.size _).trans hsize.symm
  split at hs
  case isTrue hlt =>
    cases hs
    -- the next sample is there: no buffer is ever resized
    obtain ⟨x, hx⟩ : ∃ x, (s.drained shape).payload.samples[i]? = some x :=
      ⟨_, List.getElem?_eq_getElem (hslot ▸ hlt)⟩
    refine ⟨⟨hbegun.seq_eq, hbegun.even, hbegun.goesOn, hbegun.holds, hbegun.log⟩, hlocals, hsize,
      l.set i x, ?_, fun hsame j hj => ?_⟩
    · show s.out.samples.map _ = _
      rw [hl, Option.map_some, hx]
    · rcases Nat.lt_succ_iff_lt_or_eq.mp hj with hj | rfl
      · rw [List.getElem?_set_ne (Nat.ne_of_gt hj)]
        exact hcopied hsame j hj
      · rw [List.getElem?_set_self (hlength ▸ hlt), ← hx, h.payload_eq hbegun hsame]
  case isFalse hge =>
    cases hs
    refine ⟨⟨hbegun.seq_eq, hbegun.even, hbegun.goesOn, hbegun.holds, hbegun.log⟩, hlocals,
      fun hsame _ _ _ => ?_⟩
    show s.out.samples = _
    rw [hl]
    refine congrArg some (List.ext_getElem? fun j => ?_)
    rcases Nat.lt_or_ge j i with hj | hj
    · exact hcopied hsame j hj
    · have hend : s.out.size ≤ j := Nat.le_trans (Nat.not_lt.mp hge) hj
      have hblock : r.begun.settled.samples.length = s.out.size := by
        rw [← h.payload_eq hbegun hsame]
        exact hslot
      rw [List.getElem?_eq_none (hlength ▸ hend), List.getElem?_eq_none (hblock ▸ hend)]

/-- A block that is found whole is the last publication of its slot. -/
private theorem reported {s1 : UInt64} {held : Int64} {ar : UInt32} {ex : Bool}
    (h : RingInv shape (s, r)) (hbegun : Begun shape (s, r) s1)
    (hlocals : Same shape (s, r) → held = r.begun.settled.index ∧
      ar = r.begun.settled.achievedRate ∧ ex = r.begun.settled.exact)
    (hcopied : Same shape (s, r) → s.out.samples = some r.begun.settled.samples)
    (hseq : (s.drained shape).seq = s1) (hheld : held = s.index) (hindex : s.index ≠ emptySlot)
    (hwrap : (r.tracks (shape.slotAt s.index)).generation < r.begun.generation + 2 ^ 64) :
    ∃ samples, s.out.samples = some samples ∧ lastWrite shape (shape.slotAt s.index) r.begunLog =
      some (.publish s.index samples ⟨ar, ex⟩) := by
  -- the generation is the same, so all that was loaded is one write
  have hsame : Same shape (s, r) := (SequenceLock.validate
    (h.locks.rest_or_busy (shape.slotAt s.index)) hbegun.goesOn hbegun.seq_eq hbegun.even hseq
    hwrap).1
  obtain ⟨hi, hr, he⟩ := hlocals hsame
  have hsamples := hcopied hsame
  have hholds : r.begun.settled.Holds (lastWrite shape (shape.slotAt s.index) r.begunLog) :=
    hbegun.holds
  -- the last write was a publication: a slot that is empty holds no block to ask for
  have hlive : r.begun.settled.index ≠ emptySlot := by
    rw [← hi, hheld]
    exact hindex
  refine ⟨_, hsamples, ?_⟩
  cases hlast : lastWrite shape (shape.slotAt s.index) r.begunLog with
  | none =>
    rw [hlast] at hholds
    exact absurd hholds hlive
  | some write =>
    rw [hlast] at hholds
    cases write with
    | retire slot => exact absurd hholds hlive
    | publish index samples result =>
      have heq : r.begun.settled = ⟨samples, result.achievedRate, result.exact, index⟩ := hholds
      rw [heq] at hi hr he ⊢
      rw [← hheld, hi, hr, he]

/-- The generation is looked at again. -/
private theorem drainInv_validate {attempt : ℕ} {s1 : UInt64} {held : Int64} {ar : UInt32}
    {ex : Bool} (h : RingInv shape (s, r)) (hpoint : s.drain = .validate attempt s1 held ar ex)
    (hclean : CleanDrain shape .drainStep (s, r)) (hs : s.drainStep shape = some s') :
    DrainInv shape (s', r) := by
  have hinv := h.drain
  have hcount := h.underruns
  simp only [DrainInv, hpoint] at hinv
  simp only [CleanDrain, hpoint] at hclean
  simp only [hpoint, DrainPoint.active] at hcount
  rw [RingState.drainStep, hpoint] at hs
  cases hs
  obtain ⟨hbegun, hlocals, hcopied⟩ := hinv
  by_cases hseq : (s.drained shape).seq = s1
  case neg => exact drainInv_retry (if_pos hseq) r
  by_cases hheld : held = s.index
  case neg =>
    rw [DrainInv]
    dsimp only
    rw [if_neg (not_not.mpr hseq), if_neg hheld]
    trivial
  obtain ⟨⟨hsome, hsize⟩, hindex, hwrap⟩ := hclean hseq hheld
  obtain ⟨samples, hsamples, hlast⟩ := reported h hbegun hlocals
    (fun hsame => hcopied hsame hheld hsome hsize) hseq hheld hindex hwrap
  rw [DrainInv]
  dsimp only
  rw [if_neg (not_not.mpr hseq), if_pos hheld]
  exact ⟨samples, hsamples, hlast, hbegun.log, hcount trivial⟩

/-- A drain that has not returned has counted nothing. -/
private theorem underruns_drainStep (h : RingInv shape (s, r))
    (hs : s.drainStep shape = some s') :
    s'.drain.active = true → s'.underruns = r.underrunsBefore := by
  have hcount := h.underruns
  intro hactive
  cases hd : s.drain with
  | underrun =>
    rw [RingState.drainStep, hd] at hs
    cases hs
    cases hactive
  | copy attempt s1 held ar ex i =>
    simp only [hd, DrainPoint.active, forall_const] at hcount
    simp only [RingState.drainStep, hd] at hs
    split at hs
    · cases hs
      exact hcount
    · cases hs
      exact hcount
  | idle | returned _ _ =>
    rw [RingState.drainStep, hd] at hs
    cases hs
  | generation _ | index _ _ | achievedRate _ _ _ | exact _ _ _ _ | validate _ _ _ _ _ =>
    simp only [hd, DrainPoint.active, forall_const] at hcount
    rw [RingState.drainStep, hd] at hs
    cases hs
    exact hcount

/-- The callback makes an access. -/
theorem RingInv.drainStep (h : RingInv shape (s, r)) (hclean : CleanDrain shape .drainStep (s, r))
    (hs : s.drainStep shape = some s') :
    RingInv shape (s', r.update shape .drainStep s) := by
  obtain ⟨hslots, hproducer, hindex⟩ := drainStep_frame hs
  obtain ⟨htracks, hlog, hbefore⟩ : (r.update shape .drainStep s).tracks = r.tracks ∧
      (r.update shape .drainStep s).log = r.log ∧
      (r.update shape .drainStep s).underrunsBefore = r.underrunsBefore := update_drainStep_frame
  refine ⟨fun k => ?_, ?_, fun k => ?_, ?_, ?_⟩
  · show (s'.slots k).payload.samples.length = _
    rw [hslots]
    exact h.size k
  · have hlocks := h.locks
    rw [LocksInv] at hlocks ⊢
    dsimp only at hlocks ⊢
    rwa [hslots, hproducer, htracks]
  · show ((r.update shape .drainStep s).tracks k).settled.Holds (lastWrite shape k _)
    rw [htracks, hlog]
    exact h.settled k
  · cases hd : s.drain with
    | generation attempt => exact drainInv_generation h hd hs
    | underrun =>
      have hcount := h.underruns
      simp only [hd, DrainPoint.active, forall_const] at hcount
      rw [update_drainStep_of_ne (by rw [hd]; nofun)]
      rw [RingState.drainStep, hd] at hs
      cases hs
      refine ⟨fun samples hsamples x hx => ?_, rfl, congrArg (· + 1) hcount⟩
      obtain ⟨l, -, rfl⟩ := Option.map_eq_some_iff.mp hsamples
      exact (List.mem_replicate.mp hx).2
    | copy attempt s1 held ar ex i =>
      rw [update_drainStep_of_ne (by rw [hd]; nofun)]
      exact drainInv_copy h hd hs
    | validate attempt s1 held ar ex =>
      rw [update_drainStep_of_ne (by rw [hd]; nofun)]
      exact drainInv_validate h hd hclean hs
    | idle | returned _ _ =>
      rw [RingState.drainStep, hd] at hs
      cases hs
    | index _ _ | achievedRate _ _ _ | exact _ _ _ _ =>
      rw [update_drainStep_of_ne (by rw [hd]; nofun)]
      exact drainInv_loads h hs (by rw [hd]; trivial)
  · show s'.drain.active = true → s'.underruns = (r.update shape .drainStep s).underrunsBefore
    rw [hbefore]
    exact underruns_drainStep h hs

end DrainSteps

/-! ## Runs -/

section Runs

variable {φ : Type} [Zero φ] {shape : RingShape} {p p' : RingState φ × RingRecord φ}
  {e : RingEvent φ}

theorem start_new (out : DrainBlock φ) :
    (recordedRing shape).start (.new shape out, .new shape) := ⟨⟨out, rfl⟩, rfl⟩

theorem ringInv_new (out : DrainBlock φ) :
    RingInv shape (.new shape out, (.new shape : RingRecord φ)) :=
  ⟨fun _ => List.length_replicate, fun _ => ⟨rfl, rfl, rfl⟩, fun _ => rfl, trivial, nofun⟩

/-- What happens in a step of the ring with its history. -/
theorem recordedRing_step_eq_some :
    (recordedRing shape).step e p = some p' ↔
      (preparedRing shape).step e p.1 = some p'.1 ∧ p'.2 = p.2.update shape e p.1 :=
  Machine.observe_step_eq_some

/-- Every step keeps the invariant. -/
theorem RingInv.step (h : RingInv shape p) (hclean : CleanDrain shape e p)
    (hs : (recordedRing shape).step e p = some p') : RingInv shape p' := by
  obtain ⟨s, r⟩ := p
  obtain ⟨s', r'⟩ := p'
  obtain ⟨hs, rfl⟩ := recordedRing_step_eq_some.mp hs
  cases e with
  | beginWrite write =>
    simp only [preparedRing] at hs
    split at hs
    case h_1 hidle =>
      split at hs
      case isTrue hfits =>
        cases hs
        exact h.beginWrite hidle hfits
      case isFalse => cases hs
    case h_2 => cases hs
  | producerStep =>
    cases hproducer : s.producer with
    | idle =>
      simp only [preparedRing, RingState.producerStep, hproducer] at hs
      cases hs
    | writing write found pending =>
      cases pending with
      | nil => exact h.finish hproducer hs
      | cons store pending => exact h.store hproducer hs
  | drain index out =>
    simp only [preparedRing] at hs
    split at hs
    · cases hs
    · cases hs
      exact ⟨h.size, h.locks, h.settled, trivial, fun _ => rfl⟩
  | drainStep => exact h.drainStep hclean hs

/-- The invariant holds in every run. -/
theorem reachable_ringInv (h : (recordedRing shape).Reachable (CleanDrain shape) p) :
    RingInv shape p := by
  refine h.invariant ?_ fun p e p' hp hclean hs => hp.step hclean hs
  rintro ⟨s, r⟩ ⟨⟨out, hs⟩, hr⟩
  obtain rfl : s = .new shape out := hs
  obtain rfl : r = .new shape := hr
  exact ringInv_new out

/-! ## A drain does not wait -/

/-- Accesses that an attempt makes at most. -/
def attemptSteps (size : ℕ) : ℕ := size + 6

/-- Accesses that a drain still makes at most. -/
def DrainPoint.remaining (size : ℕ) : DrainPoint → ℕ
  | .idle | .returned _ _ => 0
  | .generation attempt => (drainAttempts - attempt) * attemptSteps size + 1
  | .index attempt _ => (drainAttempts - (attempt + 1)) * attemptSteps size + size + 6
  | .achievedRate attempt _ _ => (drainAttempts - (attempt + 1)) * attemptSteps size + size + 5
  | .exact attempt _ _ _ => (drainAttempts - (attempt + 1)) * attemptSteps size + size + 4
  | .copy attempt _ _ _ _ i =>
    (drainAttempts - (attempt + 1)) * attemptSteps size + (size - i) + 3
  | .validate attempt _ _ _ _ => (drainAttempts - (attempt + 1)) * attemptSteps size + 2
  | .underrun => 1

/-- The attempts are counted. -/
def DrainPoint.Counted : DrainPoint → Prop
  | .idle | .underrun | .returned _ _ => True
  | .generation attempt | .index attempt _ | .achievedRate attempt _ _ | .exact attempt _ _ _
  | .copy attempt _ _ _ _ _ | .validate attempt _ _ _ _ => attempt < drainAttempts

/-- A `continue` uses up an attempt. -/
private theorem remaining_retry {attempt : ℕ} (size : ℕ) (h : attempt < drainAttempts) :
    (DrainPoint.retry attempt).Counted ∧ (DrainPoint.retry attempt).remaining size ≤
      (drainAttempts - (attempt + 1)) * attemptSteps size + 1 := by
  rw [DrainPoint.retry]
  split
  case isTrue hlt => exact ⟨hlt, Nat.le_refl _⟩
  case isFalse => exact ⟨trivial, Nat.le_add_left _ _⟩

/-- Every access of a drain brings it nearer to its return. -/
theorem remaining_drainStep {s s' : RingState φ} (hcounted : s.drain.Counted)
    (hs : s.drainStep shape = some s') :
    (s'.drain.Counted ∧ s'.out.size = s.out.size) ∧
      s'.drain.remaining s.out.size < s.drain.remaining s.out.size := by
  cases hd : s.drain with
  | idle | returned _ _ =>
    rw [RingState.drainStep, hd] at hs
    cases hs
  | generation attempt =>
    rw [hd] at hcounted
    have hlt : attempt < drainAttempts := hcounted
    rw [RingState.drainStep, hd] at hs
    cases hs
    have hstep : (drainAttempts - attempt) * attemptSteps s.out.size =
        (drainAttempts - (attempt + 1)) * attemptSteps s.out.size + (s.out.size + 6) := by
      have hsucc : drainAttempts - attempt = drainAttempts - (attempt + 1) + 1 := by omega
      rw [hsucc, Nat.succ_mul]
      rfl
    dsimp only
    rw [DrainPoint.remaining.eq_3, hstep]
    split
    · obtain ⟨hvalid, hle⟩ := remaining_retry s.out.size hlt
      exact ⟨⟨hvalid, rfl⟩, by omega⟩
    · refine ⟨⟨hlt, rfl⟩, ?_⟩
      show (drainAttempts - (attempt + 1)) * attemptSteps s.out.size + s.out.size + 6 < _
      omega
  | index attempt s1 =>
    rw [hd] at hcounted
    rw [RingState.drainStep, hd] at hs
    cases hs
    exact ⟨⟨hcounted, rfl⟩, Nat.lt_succ_self _⟩
  | achievedRate attempt s1 held =>
    rw [hd] at hcounted
    rw [RingState.drainStep, hd] at hs
    cases hs
    exact ⟨⟨hcounted, rfl⟩, Nat.lt_succ_self _⟩
  | exact attempt s1 held ar =>
    rw [hd] at hcounted
    rw [RingState.drainStep, hd] at hs
    cases hs
    dsimp only
    split
    · exact ⟨⟨hcounted, rfl⟩, Nat.lt_succ_self _⟩
    · refine ⟨⟨hcounted, rfl⟩, ?_⟩
      show (drainAttempts - (attempt + 1)) * attemptSteps s.out.size + 2 <
        (drainAttempts - (attempt + 1)) * attemptSteps s.out.size + s.out.size + 4
      omega
  | copy attempt s1 held ar ex i =>
    rw [hd] at hcounted
    simp only [RingState.drainStep, hd] at hs
    split at hs
    case isTrue hlt =>
      cases hs
      refine ⟨⟨hcounted, rfl⟩, ?_⟩
      show (drainAttempts - (attempt + 1)) * attemptSteps s.out.size + (s.out.size - (i + 1)) + 3 <
        (drainAttempts - (attempt + 1)) * attemptSteps s.out.size + (s.out.size - i) + 3
      omega
    case isFalse =>
      cases hs
      refine ⟨⟨hcounted, rfl⟩, ?_⟩
      show (drainAttempts - (attempt + 1)) * attemptSteps s.out.size + 2 <
        (drainAttempts - (attempt + 1)) * attemptSteps s.out.size + (s.out.size - i) + 3
      omega
  | validate attempt s1 held ar ex =>
    rw [hd] at hcounted
    rw [RingState.drainStep, hd] at hs
    cases hs
    obtain ⟨hvalid, hle⟩ := remaining_retry s.out.size hcounted
    have hlast : ∀ point : DrainPoint, point.Counted → point.remaining s.out.size ≤ 1 →
        (point.Counted ∧ s.out.size = s.out.size) ∧ point.remaining s.out.size <
          (drainAttempts - (attempt + 1)) * attemptSteps s.out.size + 2 :=
      fun point hpoint h1 => ⟨⟨hpoint, rfl⟩, by omega⟩
    dsimp only
    split
    · exact ⟨⟨hvalid, rfl⟩, Nat.lt_succ_of_le hle⟩
    · split
      · exact hlast (.returned true ⟨ar, ex⟩) trivial (Nat.zero_le _)
      · exact hlast .underrun trivial (Nat.le_refl _)
  | underrun =>
    rw [RingState.drainStep, hd] at hs
    cases hs
    exact ⟨⟨trivial, rfl⟩, Nat.zero_lt_one⟩

/-- The event is a call of `drain`. -/
def RingEvent.isCall : RingEvent φ → Bool
  | .drain _ _ => true
  | _ => false

/-- The event is an access of `drain`. -/
def RingEvent.isDrainStep : RingEvent φ → Bool
  | .drainStep => true
  | _ => false

/-- The producer does not touch the callback. -/
theorem step_of_not_drain (hcall : e.isCall = false) (hstep : e.isDrainStep = false)
    (hs : (recordedRing shape).step e p = some p') :
    p'.1.drain = p.1.drain ∧ p'.1.out = p.1.out := by
  obtain ⟨s, r⟩ := p
  obtain ⟨s', r'⟩ := p'
  obtain ⟨hs, -⟩ := recordedRing_step_eq_some.mp hs
  cases e with
  | beginWrite write =>
    simp only [preparedRing] at hs
    split at hs
    · split at hs
      · cases hs
        exact ⟨rfl, rfl⟩
      · cases hs
    · cases hs
  | producerStep =>
    simp only [preparedRing, RingState.producerStep] at hs
    split at hs
    · cases hs
    · cases hs
      exact ⟨rfl, rfl⟩
    · cases hs
      exact ⟨rfl, rfl⟩
  | drain index out => cases hcall
  | drainStep => cases hstep

/-- A drain in progress makes no more accesses than remain to it. -/
theorem countP_drainStep_le {es : List (RingEvent φ)} (hcounted : p.1.drain.Counted)
    (hes : ∀ e ∈ es, e.isCall = false) (hrun : (recordedRing shape).run es p = some p') :
    es.countP RingEvent.isDrainStep ≤ p.1.drain.remaining p.1.out.size := by
  induction es generalizing p with
  | nil => exact Nat.zero_le _
  | cons e es ih =>
    obtain ⟨hcall, hrest⟩ := List.forall_mem_cons.mp hes
    obtain ⟨q, hq, hnext⟩ := Option.bind_eq_some_iff.mp hrun
    cases hstep : e.isDrainStep with
    | false =>
      obtain ⟨hdrain, hout⟩ := step_of_not_drain hcall hstep hq
      have hle := ih (hdrain ▸ hcounted) hrest hnext
      rw [hdrain, hout] at hle
      rwa [List.countP_cons_of_neg (by rw [hstep]; exact Bool.false_ne_true)]
    | true =>
      obtain rfl : e = .drainStep := by
        cases e with
        | drainStep => rfl
        | beginWrite _ | producerStep | drain _ _ => cases hstep
      obtain ⟨⟨hvalid, hsize⟩, hlt⟩ :=
        remaining_drainStep hcounted (recordedRing_step_eq_some.mp hq).1
      have hle := ih hvalid hrest hnext
      rw [hsize] at hle
      rw [List.countP_cons_of_pos hstep]
      omega

/-- A drain returns after a bounded number of its own accesses, whatever the producer does. -/
theorem length_drain_le {index : Int64} {out : DrainBlock φ} {es : List (RingEvent φ)}
    (hes : ∀ e ∈ es, e.isCall = false)
    (hrun : (recordedRing shape).run (.drain index out :: es) p = some p') :
    es.countP RingEvent.isDrainStep ≤ drainAttempts * attemptSteps out.size + 1 := by
  obtain ⟨q, hq, hrun⟩ := Option.bind_eq_some_iff.mp hrun
  obtain ⟨s, r⟩ := p
  obtain ⟨s', r'⟩ := q
  obtain ⟨hq, -⟩ := recordedRing_step_eq_some.mp hq
  simp only [preparedRing] at hq
  split at hq
  · cases hq
  · cases hq
    refine countP_drainStep_le ?_ hes hrun
    show 0 < drainAttempts
    decide

/-- A drain that has not returned can always make its next access. -/
theorem isSome_drainStep (h : p.1.drain.active = true) :
    ((recordedRing shape).step .drainStep p).isSome = true := by
  obtain ⟨s, r⟩ := p
  show ((s.drainStep shape).map _).isSome = true
  rw [Option.isSome_map]
  dsimp only at h
  cases hd : s.drain with
  | idle | returned _ _ =>
    rw [hd] at h
    cases h
  | copy attempt s1 held ar ex i =>
    simp only [RingState.drainStep, hd]
    split
    · rfl
    · rfl
  | generation _ | index _ _ | achievedRate _ _ _ | exact _ _ _ _ | validate _ _ _ _ _
  | underrun =>
    rw [RingState.drainStep, hd]
    rfl

/-- What holds of a drain at any time: it is untorn when it returns, it never waits, and it returns
after a bounded number of its own accesses. -/
structure DrainPromise (shape : RingShape) (p : RingState φ × RingRecord φ) : Prop where
  /-- What it returns. -/
  untorn : Untorn shape p
  /-- Its next access waits for nobody. -/
  enabled : p.1.drain.active = true → ((recordedRing shape).step .drainStep p).isSome = true
  /-- It returns. -/
  bounded : ∀ index out es p', (∀ e ∈ es, e.isCall = false) →
    (recordedRing shape).run (.drain index out :: es) p = some p' →
      es.countP RingEvent.isDrainStep ≤ drainAttempts * attemptSteps out.size + 1

/-- What a drain returns is untorn in every run in which no drain reports a block into a buffer of
another size, or for the empty slot's index, or after the generation came round. -/
theorem preparedRing_untorn (h : (recordedRing shape).Reachable (CleanDrain shape) p) :
    DrainPromise shape p := by
  refine ⟨?_, isSome_drainStep, fun _ _ _ _ hes hrun => length_drain_le hes hrun⟩
  have hdrain := (reachable_ringInv h).drain
  rw [DrainInv] at hdrain
  rw [Untorn]
  cases hd : p.1.drain with
  | returned ok result =>
    simp only [hd] at hdrain
    rwa [Untorn, hd] at hdrain
  | idle | generation _ | index _ _ | achievedRate _ _ _ | exact _ _ _ _ | copy _ _ _ _ _ _
  | validate _ _ _ _ _ | underrun => trivial

/-! ## A buffer of another size -/

instance {φ : Type} (shape : RingShape) (e : RingEvent φ) (p : RingState φ × RingRecord φ) :
    Decidable (CleanDrain shape e p) := by
  unfold CleanDrain
  split
  · infer_instance
  · infer_instance

/-- A ring of one slot for one sample. -/
def smallRing : RingShape := ⟨1, .mono, 1⟩

/-- A buffer for one sample. -/
def fittingBlock : DrainBlock ℕ := ⟨some [7], 1, .mono, 48000, by decide⟩

/-- A buffer for two samples. -/
def widerBlock : DrainBlock ℕ := ⟨some [7, 7], 2, .mono, 48000, by decide⟩

/-- A publication of a sample for block 0. -/
def publishedSample : List (RingEvent ℕ) :=
  .beginWrite (.publish 0 [5] ⟨48000, true⟩) :: List.replicate 5 .producerStep

/-- A drain that finds the block at its first attempt. -/
def fittingRun : List (RingEvent ℕ) :=
  publishedSample ++ .drain 0 fittingBlock :: List.replicate 7 .drainStep

/-- A drain into a buffer of another size. -/
def widerRun : List (RingEvent ℕ) :=
  publishedSample ++ .drain 0 widerBlock :: List.replicate 5 .drainStep

/-- A block is drained as it was published. -/
theorem preparedRing_untorn_fittingRun :
    ∃ p, (recordedRing smallRing).Reachable (CleanDrain smallRing) p ∧
      (p.1.drain = .returned true ⟨48000, true⟩ ∧ p.1.out.samples = some [5]) ∧
        DrainPromise smallRing p := by
  obtain ⟨p, hp, hrun⟩ := Machine.exists_reachable (M := recordedRing smallRing)
    (CleanDrain smallRing) fittingRun
    (fun p : RingState ℕ × RingRecord ℕ =>
      decide (p.1.drain = .returned true ⟨48000, true⟩ ∧ p.1.out.samples = some [5]))
    (start_new fittingBlock) (by decide +kernel) (by decide +kernel)
  exact ⟨p, hp, of_decide_eq_true hrun, preparedRing_untorn hp⟩

/-- A drain into a buffer of another size reports the block and leaves the buffer as it was. -/
theorem not_preparedRing_untorn :
    ¬ ∀ p, (recordedRing smallRing).Reachable Machine.anyEvent p → Untorn (φ := ℕ) smallRing p := by
  intro h
  obtain ⟨p, hp, hrun⟩ := Machine.exists_reachable (M := recordedRing smallRing)
    Machine.anyEvent widerRun
    (fun p : RingState ℕ × RingRecord ℕ =>
      decide ((p.1.drain = .returned true ⟨48000, true⟩ ∧ p.1.out.samples = some [7, 7]) ∧
        p.1.index = 0 ∧ p.2.begunLog = [.publish 0 [5] ⟨48000, true⟩]))
    (start_new widerBlock) (Machine.runAllowed_anyEvent _ _) (by decide +kernel)
  obtain ⟨⟨hdrain, hout⟩, hindex, hlog⟩ := of_decide_eq_true hrun
  have huntorn := h p hp
  rw [Untorn, hdrain] at huntorn
  obtain ⟨samples, hsamples, hlast, -⟩ := huntorn
  rw [hindex, hlog] at hlast
  have hlast' : some (SlotWrite.publish 0 [5] ⟨48000, true⟩) =
      some (SlotWrite.publish 0 samples ⟨48000, true⟩) := hlast
  cases hlast'
  rw [hout] at hsamples
  cases hsamples

end Runs

end ArbitraryComposer
