import ArbitraryComposer.ToMathlib.Machine
import Mathlib.Algebra.Group.Nat.Defs
import Mathlib.Data.Finset.Basic

/-!
# Chunk Routing

A workspace file grows by whole chunks, and its directory tags each chunk with the store that owns
it. A reopened file maps the live chunks again and queues them for their owners in the order of the
directory; a store asks for its chunks one by one, in the order of its slots. What a crashed commit
appended beyond the published high-water mark is dropped.

The directory is append-only, and a punched entry stays behind as a hole. A store's chunks therefore
come back in their places as long as none of those below its mark was punched; the check on
adoption compares counts, so a hole below the mark is not seen when another chunk follows.

Chunks are named by their position in the directory. A reopened file has the header that was mapped,
or the one that the last successful sync made durable.

## Main definitions

- `ChunkFile`: a workspace file and what its stores hold.
- `ChunkFile.storeView`, `acquireFor`, `grow`, `release`, `checkpoint`, `reopen`: the operations.
- `chunkMachine`: the runs.
- `ChunkFile.restore`: the requests of a restored store.

## Main results

- `chunkRouting_iff`: when chunks come back in their places.
-/

namespace ArbitraryComposer

/-- `WorkspaceFileErrc`, of binding and growing. -/
inductive WorkspaceFileErrc where
  /-- The file or the mapping cannot grow. -/
  | growFailed
  /-- The chunk directory is full. -/
  | directoryFull
  /-- A store's geometry disagrees with the table. -/
  | storeLayoutMismatch
  /-- The store table is full. -/
  | maxStoresExceeded
  /-- A store's chunks do not cover its mark. -/
  | storeDirectoryInconsistent
  deriving DecidableEq, Repr

/-- `WorkspaceChunkEntry`. -/
structure ChunkEntry where
  /-- The file offset of the chunk. -/
  offset : ℕ
  /-- The mapped length. -/
  size : ℕ
  /-- The chunk is live, not free. -/
  live : Bool
  /-- The row of the store that owns it, if a store does. -/
  owner : Option ℕ
  deriving DecidableEq, Repr

/-- `WorkspaceStoreEntry` of a used row, less its high-water mark. -/
structure StoreRow where
  /-- The stride of a slot. -/
  slotStride : ℕ
  /-- The alignment of a slot. -/
  slotAlign : ℕ
  /-- The slots of a chunk. -/
  chunkSlots : ℕ
  deriving DecidableEq, Repr

/-- The chunks that cover a mark. -/
def StoreRow.needed (row : StoreRow) (highWater : ℕ) : ℕ :=
  if highWater = 0 then 0 else (highWater - 1) / row.chunkSlots + 1

/-- The rows that `adopt_snapshot` takes: a power of two of slots that the directory of a store can
address, over an alignment that is a power of two and divides the stride. -/
def StoreRow.canonical (row : StoreRow) : Bool :=
  ((List.range 13).any fun k => row.chunkSlots == 2 ^ k) && decide (16 ≤ row.slotAlign) &&
    ((List.range 32).any fun k => row.slotAlign == 2 ^ k) && row.slotStride % row.slotAlign == 0

/-- The header of a workspace file: its directory, its store table and the marks of the snapshot
that the selected root owns. -/
structure FileHeader where
  /-- The chunk directory, up to `chunk_count`. -/
  directory : List ChunkEntry
  /-- The used rows of the store table. -/
  rows : List StoreRow
  /-- The published high-water mark of each row. -/
  marks : ℕ → ℕ

/-- A chunk is live in a directory. -/
def liveAt (directory : List ChunkEntry) (index : ℕ) : Bool := directory[index]?.any (·.live)

/-- The live chunks of an owner, in directory order. -/
def liveOwned (directory : List ChunkEntry) (owner : Option ℕ) : List ℕ :=
  (List.range directory.length).filter fun index =>
    directory[index]?.any fun entry => entry.live && entry.owner == owner

/-- `punch_now`: the entry of a chunk is free. -/
def punchNow (directory : List ChunkEntry) (index : ℕ) : List ChunkEntry :=
  directory.modify index fun entry => { entry with live := false }

/-- Punch some chunks. -/
def punchAll (directory : List ChunkEntry) (indices : List ℕ) : List ChunkEntry :=
  indices.foldl punchNow directory

/-- The chunks of a row that the published marks cover. -/
def FileHeader.keep (h : FileHeader) (r : ℕ) : ℕ :=
  (h.rows[r]?).elim 0 fun row => row.needed (h.marks r)

/-- A workspace file and what its stores hold. -/
structure ChunkFile where
  /-- The page size. -/
  page : ℕ
  /-- The capacity of the directory. -/
  maxChunks : ℕ
  /-- The capacity of the store table. -/
  maxStores : ℕ
  /-- Where the chunks begin. -/
  dataOffset : ℕ
  /-- The header as it is mapped. -/
  header : FileHeader
  /-- The header as the last successful sync left it. -/
  durable : FileHeader
  /-- Where the next chunk goes. -/
  nextOffset : ℕ
  /-- The chunks that were mapped again and not requested yet, of each owner. -/
  pending : Option ℕ → List ℕ
  /-- The chunks that each owner requested since the file was opened, in this order. -/
  acquired : Option ℕ → List ℕ
  /-- The chunks handed out and not released. -/
  live : Finset ℕ
  /-- A release fence is installed. -/
  fenced : Bool
  /-- The released chunks that wait for a commit. -/
  quarantine : List ℕ

namespace ChunkFile

/-- `store_view`: the row of a size class, a fresh one when it has none. -/
def storeView (f : ChunkFile) (row : StoreRow) : Except WorkspaceFileErrc ℕ × ChunkFile :=
  match f.header.rows.findIdx? fun old =>
      old.slotStride == row.slotStride && old.slotAlign == row.slotAlign with
  | some r =>
    if f.header.rows[r]?.any fun old => old.chunkSlots != row.chunkSlots then
      (.error .storeLayoutMismatch, f)
    else (.ok r, f)
  | none =>
    if f.maxStores ≤ f.header.rows.length then (.error .maxStoresExceeded, f)
    else (.ok f.header.rows.length,
      { f with header := { f.header with rows := f.header.rows ++ [row] } })

/-- An owner takes a chunk. -/
def hand (f : ChunkFile) (owner : Option ℕ) (index : ℕ) : ChunkFile :=
  { f with
    acquired := Function.update f.acquired owner (f.acquired owner ++ [index])
    live := insert index f.live }

/-- `grow`: append a chunk, when the file and the mapping can grow. -/
def grow (f : ChunkFile) (owner : Option ℕ) (size : ℕ) (grows : Bool) :
    Except WorkspaceFileErrc ℕ × ChunkFile :=
  if f.maxChunks ≤ f.header.directory.length then (.error .directoryFull, f)
  else if !grows then (.error .growFailed, f)
  else
    let rounded := ((if size = 0 then 1 else size) + f.page - 1) / f.page * f.page
    let index := f.header.directory.length
    let entry : ChunkEntry := ⟨f.nextOffset, rounded, true, owner⟩
    (.ok index, { f with
      header := { f.header with directory := f.header.directory ++ [entry] }
      nextOffset := f.nextOffset + rounded }.hand owner index)

/-- `acquire_for`, and `acquire` for no owner: a chunk that was mapped again, or a fresh one. -/
def acquireFor (f : ChunkFile) (owner : Option ℕ) (size : ℕ) (grows : Bool) :
    Except WorkspaceFileErrc ℕ × ChunkFile :=
  match f.pending owner with
  | index :: rest =>
    (.ok index, { f with pending := Function.update f.pending owner rest }.hand owner index)
  | [] => f.grow owner size grows

/-- Punch some chunks of the mapped directory. -/
def punch (f : ChunkFile) (indices : List ℕ) : ChunkFile :=
  { f with header := { f.header with directory := punchAll f.header.directory indices } }

/-- `release`: behind a fence the punch waits for a commit. -/
def release (f : ChunkFile) (index : ℕ) : ChunkFile :=
  if index ∈ f.live then
    let f := { f with live := f.live.erase index }
    if f.fenced then { f with quarantine := f.quarantine ++ [index] } else f.punch [index]
  else f

/-- The header work of `commit`: publish the marks, and when the sync succeeds punch what waited. -/
def checkpoint (f : ChunkFile) (marks : ℕ → ℕ) (synced : Bool) : ChunkFile :=
  let f := { f with header := { f.header with marks } }
  if synced then
    { { f with durable := f.header }.punch f.quarantine with quarantine := [] }
  else f

/-- What `adopt_snapshot` drops: the live chunks of the rows beyond their marks. -/
def garbage (h : FileHeader) (maxStores : ℕ) : List ℕ :=
  (List.range maxStores).flatMap fun r => (liveOwned h.directory (some r)).drop (h.keep r)

/-- `open` and `adopt_snapshot`: the rows must be canonical, every tag must name a row of the table,
and a row must have as many live chunks as its mark needs. -/
def adoptable (h : FileHeader) (maxStores : ℕ) : Bool :=
  h.rows.all StoreRow.canonical &&
    (h.directory.all fun entry => !entry.live || entry.owner.all (· < maxStores)) &&
    (List.range maxStores).all fun r => decide (h.keep r ≤ (liveOwned h.directory (some r)).length)

/-- The file closed, or crashed, and opened again: its mapped header or the durable one. -/
def reopen (f : ChunkFile) (crash : Bool) : Option ChunkFile :=
  let h := if crash then f.durable else f.header
  if adoptable h f.maxStores then
    some { f with
      header := { h with directory := punchAll h.directory (garbage h f.maxStores) }
      nextOffset := h.directory.foldl (fun next entry => max next (entry.offset + entry.size))
        f.dataOffset
      pending := fun owner =>
        match owner with
        | some r => (liveOwned h.directory (some r)).take (h.keep r)
        | none => liveOwned h.directory none
      acquired := fun _ => []
      live := ∅
      fenced := false
      quarantine := [] }
  else none

/-- The requests of `reserve_restored`: so many chunks for a row. -/
def restore (f : ChunkFile) (r size : ℕ) : ℕ → ChunkFile
  | 0 => f
  | n + 1 => ((f.restore r size n).acquireFor (some r) size true).2

end ChunkFile

/-- What happens to a workspace file. -/
inductive ChunkEvent where
  /-- A size class is bound. -/
  | storeView (row : StoreRow)
  /-- A store, or nobody, asks for a chunk. -/
  | acquire (owner : Option ℕ) (size : ℕ) (grows : Bool)
  /-- A chunk is released. -/
  | release (index : ℕ)
  /-- `set_release_fence`. -/
  | setFence (installed : Bool)
  /-- A commit, whose header sync succeeds or fails. -/
  | checkpoint (marks : ℕ → ℕ) (synced : Bool)
  /-- The file is opened again, after a crash or not. -/
  | reopen (crash : Bool)

/-- The marks of the stores are covered by the chunks they asked for. -/
def ChunkFile.Covers (f : ChunkFile) (marks : ℕ → ℕ) : Prop :=
  ∀ r < f.header.rows.length, { f.header with marks }.keep r ≤ (f.acquired (some r)).length

instance (f : ChunkFile) (marks : ℕ → ℕ) : Decidable (f.Covers marks) :=
  inferInstanceAs (Decidable (∀ r < f.header.rows.length, _))

/-- The effect of an event. A store asks through the view of its row, and a commit publishes the
marks of stores that asked for the chunks below them. -/
def chunkStep : ChunkEvent → ChunkFile → Option ChunkFile
  | .storeView row, f => some (f.storeView row).2
  | .acquire owner size grows, f =>
    if owner.all (· < f.header.rows.length) then some (f.acquireFor owner size grows).2 else none
  | .release index, f => some (f.release index)
  | .setFence installed, f => some { f with fenced := installed }
  | .checkpoint marks synced, f =>
    if f.Covers marks then some (f.checkpoint marks synced) else none
  | .reopen crash, f => f.reopen crash

/-- The runs of a file that was created empty. -/
def chunkMachine : Machine ChunkFile ChunkEvent where
  start f := 0 < f.page ∧ f.header = ⟨[], [], fun _ => 0⟩ ∧ f.durable = f.header ∧
    f.nextOffset = f.dataOffset ∧ f.pending = (fun _ => []) ∧ f.acquired = (fun _ => []) ∧
    f.live = ∅ ∧ f.fenced = false ∧ f.quarantine = []
  step := chunkStep

/-! ## Directories -/

variable {directory : List ChunkEntry} {owner : Option ℕ} {i : ℕ}

/-- An entry without its state. -/
def ChunkEntry.region (entry : ChunkEntry) : ChunkEntry := { entry with live := false }

theorem mem_liveOwned : i ∈ liveOwned directory owner ↔
    ∃ entry, directory[i]? = some entry ∧ entry.live = true ∧ entry.owner = owner := by
  rw [liveOwned, List.mem_filter, List.mem_range, Option.any_eq_true]
  constructor
  · rintro ⟨-, entry, hentry, h⟩
    rw [Bool.and_eq_true, beq_iff_eq] at h
    exact ⟨entry, hentry, h⟩
  · rintro ⟨entry, hentry, h⟩
    refine ⟨(List.getElem?_eq_some_iff.mp hentry).1, entry, hentry, ?_⟩
    rw [Bool.and_eq_true, beq_iff_eq]
    exact h

theorem nodup_liveOwned : (liveOwned directory owner).Nodup := List.nodup_range.filter _

theorem liveAt_of_mem_liveOwned (h : i ∈ liveOwned directory owner) :
    liveAt directory i = true := by
  obtain ⟨entry, hentry, hlive, -⟩ := mem_liveOwned.mp h
  rw [liveAt, hentry]
  exact hlive

/-- A punched chunk is not live; the others are what they were. -/
private theorem any_punchNow (p : ChunkEntry → Bool)
    (hp : ∀ entry : ChunkEntry, p { entry with live := false } = false) (index : ℕ) :
    (punchNow directory index)[i]?.any p = (directory[i]?.any p && decide (i ≠ index)) := by
  rw [punchNow, List.getElem?_modify]
  rcases directory[i]? with _ | entry
  · rfl
  · by_cases h : index = i
    · simp [h, hp]
    · simp [h, Ne.symm h]

/-- What a test of live entries finds after some punches. -/
private theorem any_punchAll (p : ChunkEntry → Bool)
    (hp : ∀ entry : ChunkEntry, p { entry with live := false } = false) (indices : List ℕ) :
    (punchAll directory indices)[i]?.any p =
      (directory[i]?.any p && decide (i ∉ indices)) := by
  induction indices generalizing directory with
  | nil =>
    rw [decide_eq_true List.not_mem_nil, Bool.and_true]
    rfl
  | cons index indices ih =>
    show (punchAll (punchNow directory index) indices)[i]?.any p = _
    rw [ih, any_punchNow p hp, Bool.and_assoc, ← Bool.decide_and]
    simp only [List.mem_cons, not_or, ne_eq]

theorem length_punchAll (indices : List ℕ) :
    (punchAll directory indices).length = directory.length := by
  induction indices generalizing directory with
  | nil => rfl
  | cons index indices ih =>
    show (punchAll (punchNow directory index) indices).length = _
    rw [ih, punchNow, List.length_modify]

theorem liveAt_punchAll (indices : List ℕ) :
    liveAt (punchAll directory indices) i = (liveAt directory i && decide (i ∉ indices)) :=
  any_punchAll _ (fun _ => rfl) indices

/-- Punching takes chunks away from their owners. -/
theorem liveOwned_punchAll (indices : List ℕ) :
    liveOwned (punchAll directory indices) owner =
      (liveOwned directory owner).filter (· ∉ indices) := by
  rw [liveOwned, liveOwned, List.filter_filter, length_punchAll]
  refine List.filter_congr fun i _ => ?_
  rw [any_punchAll _ (fun _ => rfl) indices, Bool.and_comm]

/-- Punching moves no region. -/
theorem map_region_punchAll (indices : List ℕ) :
    (punchAll directory indices).map ChunkEntry.region = directory.map ChunkEntry.region := by
  induction indices generalizing directory with
  | nil => rfl
  | cons index indices ih =>
    show (punchAll (punchNow directory index) indices).map ChunkEntry.region = _
    rw [ih]
    apply List.ext_getElem?
    intro i
    rw [List.getElem?_map, List.getElem?_map, punchNow, List.getElem?_modify]
    rcases directory[i]? with _ | entry
    · rfl
    · by_cases h : index = i
      · simp [h, ChunkEntry.region]
      · simp [h]

/-- A fresh chunk comes last. -/
theorem liveOwned_append (entry : ChunkEntry) (hlive : entry.live = true) :
    liveOwned (directory ++ [entry]) owner =
      liveOwned directory owner ++ if entry.owner = owner then [directory.length] else [] := by
  have hold : (List.range directory.length).filter (fun index =>
      (directory ++ [entry])[index]?.any fun e => e.live && e.owner == owner) =
      liveOwned directory owner := by
    refine List.filter_congr fun i hi => ?_
    rw [List.getElem?_append_left (List.mem_range.mp hi)]
  have hlast : (directory ++ [entry])[directory.length]? = some entry := List.getElem?_concat_length
  rw [liveOwned, List.length_append, List.length_singleton, List.range_succ, List.filter_append,
    hold, List.filter_singleton, hlast, Option.any_some, hlive, Bool.true_and]
  by_cases h : entry.owner = owner
  · rw [if_pos h, beq_iff_eq.mpr h]
    rfl
  · rw [if_neg h, beq_eq_false_iff_ne.mpr h]
    rfl

/-- A fresh chunk changes nothing about the old ones. -/
theorem liveAt_append (entry : ChunkEntry) (hi : i < directory.length) :
    liveAt (directory ++ [entry]) i = liveAt directory i := by
  rw [liveAt, List.getElem?_append_left hi, liveAt]

/-! ## The invariant -/

/-- The tags of a directory name rows of the table. -/
structure FileHeader.Tagged (h : FileHeader) (maxStores : ℕ) : Prop where
  /-- The table is not over its capacity. -/
  table : h.rows.length ≤ maxStores
  /-- Every owner has a row. -/
  owners : ∀ entry ∈ h.directory, ∀ r ∈ entry.owner, r < h.rows.length

namespace ChunkFile

variable {f f' : ChunkFile}

/-- What every step keeps. -/
structure Inv (f : ChunkFile) : Prop where
  /-- The live chunks of an owner are those it asked for and those it may ask for, in order. -/
  sequence : ∀ o, liveOwned f.header.directory o =
    (f.acquired o ++ f.pending o).filter (liveAt f.header.directory)
  /-- These are its own. -/
  tagged : ∀ o, ∀ i ∈ f.acquired o ++ f.pending o,
    ∃ entry, f.header.directory[i]? = some entry ∧ entry.owner = o
  /-- No chunk comes twice. -/
  nodup : ∀ o, (f.acquired o ++ f.pending o).Nodup
  /-- What may be asked for is live. -/
  pending : ∀ o, ∀ i ∈ f.pending o, liveAt f.header.directory i = true
  /-- What is handed out is live and waits for no commit. -/
  live : ∀ i ∈ f.live, liveAt f.header.directory i = true ∧ i ∉ f.quarantine ∧
    ∃ o, i ∈ f.acquired o
  /-- What waits for a commit was handed out. -/
  waits : ∀ i ∈ f.quarantine, ∃ o, i ∈ f.acquired o
  /-- Regions follow each other. -/
  ordered : (f.header.directory.map ChunkEntry.region).Pairwise fun a b =>
    a.offset + a.size ≤ b.offset
  /-- They lie before the next one. -/
  below : ∀ entry ∈ f.header.directory.map ChunkEntry.region,
    entry.offset + entry.size ≤ f.nextOffset
  /-- The durable directory is a beginning of the mapped one, up to punches. -/
  durable : f.durable.directory.map ChunkEntry.region <+:
    f.header.directory.map ChunkEntry.region
  /-- Every owner has a row. -/
  header : f.header.Tagged f.maxStores
  /-- So it has in the durable header. -/
  durableHeader : f.durable.Tagged f.maxStores

/-- A chunk that may be asked for was not handed out. -/
private theorem Inv.not_acquired (h : f.Inv) {o o' : Option ℕ} {i : ℕ} (hi : i ∈ f.pending o) :
    i ∉ f.acquired o' := by
  intro hacq
  obtain ⟨entry, hentry, howner⟩ := h.tagged o i (List.mem_append_right _ hi)
  obtain ⟨entry', hentry', howner'⟩ := h.tagged o' i (List.mem_append_left _ hacq)
  obtain rfl : entry = entry' := Option.some.inj (hentry.symm.trans hentry')
  rw [← howner', howner] at hacq
  obtain ⟨-, -, hdisjoint⟩ := List.nodup_append.mp (h.nodup o)
  exact hdisjoint i hacq i hi rfl

/-- An entry after some punches has the tag it had. -/
private theorem getElem?_punchAll_owner {directory : List ChunkEntry} (indices : List ℕ) {i : ℕ}
    {entry : ChunkEntry} (hentry : directory[i]? = some entry) :
    ∃ entry', (punchAll directory indices)[i]? = some entry' ∧ entry'.owner = entry.owner := by
  have hmap : ((punchAll directory indices).map ChunkEntry.region)[i]? =
      (directory.map ChunkEntry.region)[i]? := congrArg (·[i]?) (map_region_punchAll indices)
  simp only [List.getElem?_map, hentry, Option.map_some, Option.map_eq_some_iff] at hmap
  obtain ⟨entry', hentry', hregion⟩ := hmap
  have howner : entry'.region.owner = entry.region.owner := by rw [hregion]
  exact ⟨entry', hentry', howner⟩

/-- Tags survive punches. -/
private theorem tagged_punchAll {h : FileHeader} {maxStores : ℕ} (ht : h.Tagged maxStores)
    (indices : List ℕ) :
    FileHeader.Tagged { h with directory := punchAll h.directory indices } maxStores := by
  refine ⟨ht.table, fun entry hentry r hr => ?_⟩
  have hmem : entry.region ∈ h.directory.map ChunkEntry.region := by
    rw [← map_region_punchAll indices]
    exact List.mem_map_of_mem hentry
  obtain ⟨old, hold, hregion⟩ := List.mem_map.mp hmem
  have howner : old.region.owner = entry.region.owner := by rw [hregion]
  refine ht.owners old hold r ?_
  rwa [show old.owner = entry.owner from howner]

/-- Punching what was handed out and given back. -/
private theorem Inv.punch (h : f.Inv) {indices : List ℕ}
    (hindices : ∀ i ∈ indices, (∃ o, i ∈ f.acquired o) ∧ i ∉ f.live) :
    (f.punch indices).Inv where
  sequence o := by
    show liveOwned (punchAll f.header.directory indices) o = _
    rw [liveOwned_punchAll, h.sequence, List.filter_filter]
    refine List.filter_congr fun i _ => ?_
    rw [Bool.and_comm]
    exact (liveAt_punchAll indices).symm
  tagged o i hi := by
    obtain ⟨entry, hentry, howner⟩ := h.tagged o i hi
    obtain ⟨entry', hentry', howner'⟩ := getElem?_punchAll_owner indices hentry
    exact ⟨entry', hentry', howner'.trans howner⟩
  nodup := h.nodup
  pending o i hi := by
    show liveAt (punchAll f.header.directory indices) i = true
    rw [liveAt_punchAll, h.pending o i hi, Bool.true_and, decide_eq_true_iff]
    intro hpunched
    obtain ⟨⟨o', hacq⟩, -⟩ := hindices i hpunched
    exact h.not_acquired hi hacq
  live i hi := by
    obtain ⟨hlive, hrest⟩ := h.live i hi
    refine ⟨?_, hrest⟩
    show liveAt (punchAll f.header.directory indices) i = true
    rw [liveAt_punchAll, hlive, Bool.true_and, decide_eq_true_iff]
    exact fun hpunched => (hindices i hpunched).2 hi
  waits := h.waits
  ordered := by
    show ((punchAll f.header.directory indices).map ChunkEntry.region).Pairwise _
    rw [map_region_punchAll]
    exact h.ordered
  below := by
    show ∀ entry ∈ (punchAll f.header.directory indices).map ChunkEntry.region, _
    rw [map_region_punchAll]
    exact h.below
  durable := by
    show _ <+: (punchAll f.header.directory indices).map ChunkEntry.region
    rw [map_region_punchAll]
    exact h.durable
  header := tagged_punchAll h.header indices
  durableHeader := h.durableHeader

/-- A release keeps the invariant. -/
private theorem Inv.release (h : f.Inv) (index : ℕ) : (f.release index).Inv := by
  unfold ChunkFile.release
  split
  case isFalse => exact h
  case isTrue hlive =>
    obtain ⟨hlive', hfence, hacq⟩ := h.live index hlive
    dsimp only
    split
    · refine { h with live := fun i hi => ?_, waits := fun i hi => ?_ }
      · obtain ⟨hne, hi⟩ := Finset.mem_erase.mp hi
        obtain ⟨hi', hq, ho⟩ := h.live i hi
        refine ⟨hi', fun hmem => ?_, ho⟩
        rcases List.mem_append.mp hmem with hmem | hmem
        · exact hq hmem
        · exact hne (List.mem_singleton.mp hmem)
      · rcases List.mem_append.mp hi with hi | hi
        · exact h.waits i hi
        · rw [List.mem_singleton.mp hi]
          exact hacq
    · have herased : Inv { f with live := f.live.erase index } :=
        { h with live := fun i hi => h.live i (Finset.mem_of_mem_erase hi) }
      apply herased.punch
      intro i hi
      rw [List.mem_singleton.mp hi]
      exact ⟨hacq, Finset.notMem_erase index f.live⟩

/-- A commit keeps the invariant. -/
private theorem Inv.checkpoint (h : f.Inv) (marks : ℕ → ℕ) (synced : Bool) :
    (f.checkpoint marks synced).Inv := by
  have hmarks : Inv { f with header := { f.header with marks } } :=
    { h with header := ⟨h.header.table, h.header.owners⟩ }
  unfold ChunkFile.checkpoint
  dsimp only
  split
  case isFalse => exact hmarks
  case isTrue =>
    have hdurable : Inv { f with
        header := { f.header with marks }, durable := { f.header with marks } } :=
      { hmarks with
        durable := List.prefix_refl _
        durableHeader := hmarks.header }
    have hpunched := hdurable.punch (show ∀ i ∈ f.quarantine, _ from fun i hi =>
      ⟨h.waits i hi, fun hlive => (h.live i hlive).2.1 hi⟩)
    exact
      { hpunched with
        live := fun i hi => ⟨(hpunched.live i hi).1, List.not_mem_nil, (hpunched.live i hi).2.2⟩
        waits := fun i hi => absurd hi List.not_mem_nil }

/-- Binding a size class keeps the invariant. -/
private theorem Inv.storeView (h : f.Inv) (row : StoreRow) : (f.storeView row).2.Inv := by
  unfold ChunkFile.storeView
  split
  · split <;> exact h
  · split
    · exact h
    · rename_i hroom
      refine { h with header := ⟨?_, fun entry hentry r hr => ?_⟩ }
      · show (f.header.rows ++ [row]).length ≤ f.maxStores
        rw [List.length_append, List.length_singleton]
        omega
      · show r < (f.header.rows ++ [row]).length
        have hlt := h.header.owners entry hentry r hr
        rw [List.length_append]
        omega

/-- Handing out a chunk that was mapped again keeps the invariant. -/
private theorem Inv.hand_pending (h : f.Inv) {owner : Option ℕ} {index : ℕ} {rest : List ℕ}
    (hpending : f.pending owner = index :: rest) :
    Inv ({ f with pending := Function.update f.pending owner rest }.hand owner index) := by
  have hindex : index ∈ f.pending owner := hpending ▸ List.mem_cons_self
  have hlists : ∀ o, Function.update f.acquired owner (f.acquired owner ++ [index]) o ++
      Function.update f.pending owner rest o = f.acquired o ++ f.pending o := by
    intro o
    by_cases ho : o = owner
    · subst ho
      rw [Function.update_self, Function.update_self, hpending, List.append_assoc,
        List.singleton_append]
    · rw [Function.update_of_ne ho, Function.update_of_ne ho]
  have hgrows : ∀ o i, i ∈ f.acquired o →
      i ∈ Function.update f.acquired owner (f.acquired owner ++ [index]) o := by
    intro o i hi
    by_cases ho : o = owner
    · subst ho
      rw [Function.update_self]
      exact List.mem_append_left _ hi
    · rwa [Function.update_of_ne ho]
  refine { h with sequence := fun o => ?_, tagged := fun o => ?_, nodup := fun o => ?_,
                  pending := fun o i hi => ?_, live := fun i hi => ?_, waits := fun i hi => ?_ }
  · exact (h.sequence o).trans (congrArg (List.filter _) (hlists o).symm)
  · intro i hi
    exact h.tagged o i ((hlists o) ▸ hi)
  · exact (hlists o).symm ▸ h.nodup o
  · have hi : i ∈ Function.update f.pending owner rest o := hi
    refine h.pending o i ?_
    by_cases ho : o = owner
    · subst ho
      rw [Function.update_self] at hi
      rw [hpending]
      exact List.mem_cons_of_mem _ hi
    · rwa [Function.update_of_ne ho] at hi
  · rcases Finset.mem_insert.mp hi with rfl | hi
    · refine ⟨h.pending owner i hindex, fun hq => ?_, owner, ?_⟩
      · obtain ⟨o, hacq⟩ := h.waits i hq
        exact h.not_acquired hindex hacq
      · show i ∈ Function.update f.acquired owner (f.acquired owner ++ [i]) owner
        rw [Function.update_self]
        exact List.mem_append_right _ (List.mem_singleton.mpr rfl)
    · obtain ⟨hlive, hq, o, hacq⟩ := h.live i hi
      exact ⟨hlive, hq, o, hgrows o i hacq⟩
  · obtain ⟨o, hacq⟩ := h.waits i hi
    exact ⟨o, hgrows o i hacq⟩

/-- A chunk of some owner is in the directory. -/
private theorem Inv.lt_length (h : f.Inv) {o : Option ℕ} {i : ℕ}
    (hi : i ∈ f.acquired o ++ f.pending o) : i < f.header.directory.length := by
  obtain ⟨entry, hentry, -⟩ := h.tagged o i hi
  exact (List.getElem?_eq_some_iff.mp hentry).1

/-- Growing keeps the invariant. -/
private theorem Inv.grow (h : f.Inv) {owner : Option ℕ} (hpending : f.pending owner = [])
    (howner : ∀ r ∈ owner, r < f.header.rows.length) (size : ℕ) (grows : Bool) :
    (f.grow owner size grows).2.Inv := by
  unfold ChunkFile.grow
  split
  case isTrue => exact h
  case isFalse =>
    split
    case isTrue => exact h
    case isFalse =>
      dsimp only
      generalize ((if size = 0 then 1 else size) + f.page - 1) / f.page * f.page = rounded
      have hlists : ∀ o, Function.update f.acquired owner
          (f.acquired owner ++ [f.header.directory.length]) o ++ f.pending o =
          f.acquired o ++ f.pending o ++
            if owner = o then [f.header.directory.length] else [] := by
        intro o
        by_cases ho : owner = o
        · subst ho
          rw [Function.update_self, hpending, if_pos rfl, List.append_nil, List.append_nil]
        · rw [Function.update_of_ne (Ne.symm ho), if_neg ho, List.append_nil]
      have hgrows : ∀ o i, i ∈ f.acquired o → i ∈ Function.update f.acquired owner
          (f.acquired owner ++ [f.header.directory.length]) o := by
        intro o i hi
        by_cases ho : o = owner
        · subst ho
          rw [Function.update_self]
          exact List.mem_append_left _ hi
        · rwa [Function.update_of_ne ho]
      -- the fresh chunk is in no list yet
      have hfresh : ∀ o, f.header.directory.length ∉ f.acquired o ++ f.pending o := fun o hmem =>
        Nat.lt_irrefl _ (h.lt_length hmem)
      have hold : ∀ o, ∀ i ∈ f.acquired o ++ f.pending o,
          liveAt (f.header.directory ++ [⟨f.nextOffset, rounded, true, owner⟩]) i =
            liveAt f.header.directory i := fun o i hi => liveAt_append _ (h.lt_length hi)
      have hnew : liveAt (f.header.directory ++ [⟨f.nextOffset, rounded, true, owner⟩])
          f.header.directory.length = true := by
        rw [liveAt, List.getElem?_concat_length]
        rfl
      refine { sequence := fun o => ?_, tagged := fun o i hi => ?_, nodup := fun o => ?_,
               pending := fun o i hi => ?_, live := fun i hi => ?_, waits := fun i hi => ?_,
               ordered := ?_, below := ?_, durable := ?_, header := ?_,
               durableHeader := h.durableHeader }
      · refine (liveOwned_append _ rfl).trans ?_
        rw [h.sequence]
        refine Eq.trans ?_ (congrArg (List.filter _) (hlists o).symm)
        rw [List.filter_append (f.acquired o ++ f.pending o)]
        refine congrArg₂ (· ++ ·) (List.filter_congr fun i hi => (hold o i hi).symm) ?_
        split
        · exact (List.filter_cons_of_pos (l := []) hnew).symm
        · rfl
      · have hi : i ∈ f.acquired o ++ f.pending o ++
            if owner = o then [f.header.directory.length] else [] := (hlists o) ▸ hi
        rcases List.mem_append.mp hi with hi | hi
        · obtain ⟨entry, hentry, hown⟩ := h.tagged o i hi
          refine ⟨entry, ?_, hown⟩
          exact (List.getElem?_append_left (h.lt_length hi)).trans hentry
        · split at hi
          case isTrue ho =>
            obtain rfl := List.mem_singleton.mp hi
            exact ⟨_, List.getElem?_concat_length, ho⟩
          case isFalse => cases hi
      · refine (congrArg List.Nodup (hlists o)).mpr ?_
        rw [List.nodup_append]
        refine ⟨h.nodup o, ?_, fun i hi j hj hij => ?_⟩
        · split
          · exact List.nodup_singleton _
          · exact List.nodup_nil
        · split at hj
          case isTrue =>
            rw [hij, List.mem_singleton.mp hj] at hi
            exact hfresh o hi
          case isFalse => cases hj
      · refine (hold o i (List.mem_append_right _ hi)).trans (h.pending o i hi)
      · rcases Finset.mem_insert.mp hi with rfl | hi
        · refine ⟨hnew, fun hq => ?_, owner, ?_⟩
          · obtain ⟨o, hacq⟩ := h.waits _ hq
            exact hfresh o (List.mem_append_left _ hacq)
          · show _ ∈ Function.update f.acquired owner _ owner
            rw [Function.update_self]
            exact List.mem_append_right _ (List.mem_singleton.mpr rfl)
        · obtain ⟨hlive, hq, o, hacq⟩ := h.live i hi
          exact ⟨(hold o i (List.mem_append_left _ hacq)).trans hlive, hq, o, hgrows o i hacq⟩
      · obtain ⟨o, hacq⟩ := h.waits i hi
        exact ⟨o, hgrows o i hacq⟩
      · show ((f.header.directory ++ [_]).map ChunkEntry.region).Pairwise _
        rw [List.map_append, List.pairwise_append]
        refine ⟨h.ordered, List.pairwise_singleton _ _, fun a ha b hb => ?_⟩
        rw [List.map_singleton, List.mem_singleton] at hb
        rw [hb]
        exact h.below a ha
      · intro entry hentry
        show entry.offset + entry.size ≤ f.nextOffset + rounded
        change entry ∈ (f.header.directory ++ [_]).map ChunkEntry.region at hentry
        rw [List.map_append] at hentry
        rcases List.mem_append.mp hentry with hentry | hentry
        · exact (h.below entry hentry).trans (Nat.le_add_right _ _)
        · rw [List.map_singleton, List.mem_singleton] at hentry
          rw [hentry]
          exact Nat.le_refl _
      · show _ <+: (f.header.directory ++ [_]).map ChunkEntry.region
        rw [List.map_append]
        exact h.durable.trans (List.prefix_append _ _)
      · refine ⟨h.header.table, fun entry hentry r hr => ?_⟩
        rcases List.mem_append.mp hentry with hentry | hentry
        · exact h.header.owners entry hentry r hr
        · rw [List.mem_singleton.mp hentry] at hr
          exact howner r hr

/-! ## Opening again -/

/-- A list without the elements of its end. -/
private theorem filter_eq_take {p : ℕ → Bool} {l : List ℕ} {n : ℕ}
    (htake : ∀ i ∈ l.take n, p i = true) (hdrop : ∀ i ∈ l.drop n, ¬ p i = true) :
    l.filter p = l.take n := by
  calc l.filter p = (l.take n ++ l.drop n).filter p := by rw [List.take_append_drop]
    _ = (l.take n).filter p ++ (l.drop n).filter p := List.filter_append _ _
    _ = l.take n := by
      rw [List.filter_eq_self.mpr htake, List.filter_eq_nil_iff.mpr hdrop, List.append_nil]

/-- A dropped chunk is a live chunk of a row. -/
private theorem mem_garbage {h : FileHeader} {maxStores i : ℕ} :
    i ∈ garbage h maxStores ↔
      ∃ r < maxStores, i ∈ (liveOwned h.directory (some r)).drop (h.keep r) := by
  rw [garbage, List.mem_flatMap]
  simp only [List.mem_range]

/-- A chunk has one owner. -/
private theorem owner_unique {directory : List ChunkEntry} {o o' : Option ℕ} {i : ℕ}
    (hi : i ∈ liveOwned directory o) (hi' : i ∈ liveOwned directory o') : o = o' := by
  obtain ⟨entry, hentry, -, howner⟩ := mem_liveOwned.mp hi
  obtain ⟨entry', hentry', -, howner'⟩ := mem_liveOwned.mp hi'
  obtain rfl : entry = entry' := Option.some.inj (hentry.symm.trans hentry')
  exact howner.symm.trans howner'

/-- The live chunks of an adopted file are those its stores may ask for. -/
private theorem liveOwned_adopted {h : FileHeader} {maxStores : ℕ} (hadopt : adoptable h maxStores)
    (o : Option ℕ) : liveOwned (punchAll h.directory (garbage h maxStores)) o =
      match o with
      | some r => (liveOwned h.directory (some r)).take (h.keep r)
      | none => liveOwned h.directory none := by
  rw [liveOwned_punchAll]
  cases o with
  | none =>
    refine List.filter_eq_self.mpr fun i hi => ?_
    rw [decide_eq_true_iff, mem_garbage]
    rintro ⟨r, -, hdrop⟩
    exact nomatch owner_unique hi (List.mem_of_mem_drop hdrop)
  | some r =>
    refine filter_eq_take (fun i hi => ?_) fun i hi => ?_
    · rw [decide_eq_true_iff, mem_garbage]
      rintro ⟨r', -, hdrop⟩
      obtain rfl : r = r' := Option.some.inj
        (owner_unique (List.mem_of_mem_take hi) (List.mem_of_mem_drop hdrop))
      exact List.disjoint_take_drop nodup_liveOwned (Nat.le_refl _) hi hdrop
    · rw [decide_eq_true_iff, not_not, mem_garbage]
      refine ⟨r, ?_, hi⟩
      -- its tag names a row of the table
      obtain ⟨entry, hentry, hlive, howner⟩ := mem_liveOwned.mp (List.mem_of_mem_drop hi)
      rw [adoptable, Bool.and_eq_true, Bool.and_eq_true] at hadopt
      have htag := List.all_eq_true.mp hadopt.1.2 entry (List.mem_of_getElem? hentry)
      rw [hlive, howner] at htag
      exact of_decide_eq_true htag

/-- The next chunk goes after every region. -/
private theorem le_foldl_max (directory : List ChunkEntry) : ∀ start : ℕ,
    start ≤ directory.foldl (fun next entry => max next (entry.offset + entry.size)) start ∧
      ∀ entry ∈ directory, entry.offset + entry.size ≤
        directory.foldl (fun next entry => max next (entry.offset + entry.size)) start := by
  induction directory with
  | nil => exact fun start => ⟨Nat.le_refl _, fun _ hentry => absurd hentry List.not_mem_nil⟩
  | cons first directory ih =>
    intro start
    obtain ⟨hstart, hall⟩ := ih (max start (first.offset + first.size))
    refine ⟨(Nat.le_max_left _ _).trans hstart, fun entry hentry => ?_⟩
    rcases List.mem_cons.mp hentry with rfl | hentry
    · exact (Nat.le_max_right _ _).trans hstart
    · exact hall entry hentry

/-- Opening a file again establishes the invariant. -/
private theorem Inv.reopen (h : f.Inv) {crash : Bool} (hs : f.reopen crash = some f') :
    f'.Inv := by
  unfold ChunkFile.reopen at hs
  have hheader : (if crash then f.durable else f.header).Tagged f.maxStores := by
    split
    · exact h.durableHeader
    · exact h.header
  have hregions : ((if crash then f.durable else f.header).directory.map
        ChunkEntry.region).Pairwise (fun a b => a.offset + a.size ≤ b.offset) ∧
      f.durable.directory.map ChunkEntry.region <+:
        (if crash then f.durable else f.header).directory.map ChunkEntry.region := by
    split
    · exact ⟨h.ordered.sublist h.durable.sublist, List.prefix_refl _⟩
    · exact ⟨h.ordered, h.durable⟩
  generalize (if crash then f.durable else f.header) = header at hs hheader hregions
  dsimp only at hs
  split at hs
  case isFalse => cases hs
  case isTrue hadopt =>
    have hlive := liveOwned_adopted hadopt
    have hmem : ∀ o i, (i ∈ match o with
        | some r => (liveOwned header.directory (some r)).take (header.keep r)
        | none => liveOwned header.directory none) →
        i ∈ liveOwned (punchAll header.directory (garbage header f.maxStores)) o := by
      intro o i hi
      rw [hlive o]
      exact hi
    obtain rfl := Option.some.inj hs
    refine { sequence := fun o => ?_, tagged := fun o i hi => ?_, nodup := fun o => ?_,
             pending := fun o i hi => ?_, live := fun i hi => absurd hi (Finset.notMem_empty i),
             waits := fun i hi => absurd hi List.not_mem_nil, ordered := ?_, below := ?_,
             durable := ?_, header := tagged_punchAll hheader _,
             durableHeader := h.durableHeader }
    · refine (hlive o).trans (Eq.symm ?_)
      refine (List.filter_eq_self.mpr fun i hi => ?_)
      exact liveAt_of_mem_liveOwned (hmem o i hi)
    · obtain ⟨entry, hentry, -, howner⟩ := mem_liveOwned.mp (hmem o i hi)
      exact ⟨entry, hentry, howner⟩
    · exact (congrArg List.Nodup (hlive o)).mp nodup_liveOwned
    · exact liveAt_of_mem_liveOwned (hmem o i hi)
    · show ((punchAll header.directory _).map ChunkEntry.region).Pairwise _
      rw [map_region_punchAll]
      exact hregions.1
    · intro entry hentry
      change entry ∈ (punchAll header.directory _).map ChunkEntry.region at hentry
      rw [map_region_punchAll] at hentry
      obtain ⟨old, hold, rfl⟩ := List.mem_map.mp hentry
      exact (le_foldl_max header.directory f.dataOffset).2 old hold
    · show _ <+: (punchAll header.directory _).map ChunkEntry.region
      rw [map_region_punchAll]
      exact hregions.2

/-- Every step keeps the invariant. -/
theorem Inv.step (h : f.Inv) {e : ChunkEvent} (hs : chunkStep e f = some f') : f'.Inv := by
  cases e with
  | storeView row =>
    obtain rfl := Option.some.inj hs
    exact h.storeView row
  | acquire owner size grows =>
    rw [chunkStep] at hs
    split at hs
    case isFalse => cases hs
    case isTrue howner =>
      obtain rfl := Option.some.inj hs
      unfold acquireFor
      split
      · rename_i index rest hpending
        exact h.hand_pending hpending
      · rename_i hpending
        refine h.grow hpending (fun r hr => ?_) size grows
        obtain rfl := hr
        exact of_decide_eq_true howner
  | release index =>
    obtain rfl := Option.some.inj hs
    exact h.release index
  | setFence installed =>
    obtain rfl := Option.some.inj hs
    exact { h with }
  | checkpoint marks synced =>
    rw [chunkStep] at hs
    split at hs
    case isFalse => cases hs
    case isTrue =>
      obtain rfl := Option.some.inj hs
      exact h.checkpoint marks synced
  | reopen crash => exact h.reopen hs

/-- A file that was just created. -/
private theorem inv_start (h : chunkMachine.start f) : f.Inv := by
  obtain ⟨-, hheader, hdurable, -, hpending, hacquired, hlive, -, hquarantine⟩ := h
  refine { sequence := fun o => ?_, tagged := fun o i hi => ?_, nodup := fun o => ?_,
           pending := fun o i hi => ?_, live := fun i hi => ?_, waits := fun i hi => ?_,
           ordered := ?_, below := ?_, durable := ?_, header := ?_, durableHeader := ?_ }
  · rw [hheader, hacquired, hpending]
    rfl
  · rw [hacquired, hpending] at hi
    cases hi
  · rw [hacquired, hpending]
    exact List.nodup_nil
  · rw [hpending] at hi
    cases hi
  · rw [hlive] at hi
    exact absurd hi (Finset.notMem_empty i)
  · rw [hquarantine] at hi
    cases hi
  · rw [hheader]
    exact List.Pairwise.nil
  · rw [hheader]
    exact fun _ hentry => absurd hentry List.not_mem_nil
  · rw [hdurable]
  · rw [hheader]
    exact ⟨Nat.zero_le _, fun _ hentry => absurd hentry List.not_mem_nil⟩
  · rw [hdurable, hheader]
    exact ⟨Nat.zero_le _, fun _ hentry => absurd hentry List.not_mem_nil⟩

/-! ## Routing -/

/-- What holds of the regions in every state. -/
structure Sound (f : ChunkFile) : Prop where
  /-- Two regions never overlap. -/
  apart : ∀ (i j : ℕ) (a b : ChunkEntry), i < j → f.header.directory[i]? = some a →
    f.header.directory[j]? = some b → a.offset + a.size ≤ b.offset
  /-- No chunk is for two owners. -/
  oneOwner : ∀ o o' i, i ∈ f.acquired o ++ f.pending o → i ∈ f.acquired o' ++ f.pending o' → o = o'
  /-- A chunk that an owner holds or may ask for is not free. -/
  inUse : ∀ i, (i ∈ f.live ∨ ∃ o, i ∈ f.pending o) → liveAt f.header.directory i = true
  /-- A fresh region lies behind every region of the mapped and of the durable directory. -/
  fresh : ∀ owner size grows index f', f.grow owner size grows = (.ok index, f') →
    ∃ entry, f'.header.directory = f.header.directory ++ [entry] ∧ entry.owner = owner ∧
      ∀ old ∈ f.header.directory ++ f.durable.directory, old.offset + old.size ≤ entry.offset

private theorem Inv.sound (h : f.Inv) : f.Sound where
  apart i j a b hij ha hb := by
    have hpair := List.pairwise_iff_getElem.mp (List.pairwise_map.mp h.ordered)
    obtain ⟨hi, rfl⟩ := List.getElem?_eq_some_iff.mp ha
    obtain ⟨hj, rfl⟩ := List.getElem?_eq_some_iff.mp hb
    exact hpair i j hi hj hij
  oneOwner o o' i hi hi' := by
    obtain ⟨entry, hentry, howner⟩ := h.tagged o i hi
    obtain ⟨entry', hentry', howner'⟩ := h.tagged o' i hi'
    obtain rfl : entry = entry' := Option.some.inj (hentry.symm.trans hentry')
    exact howner.symm.trans howner'
  inUse i hi := by
    rcases hi with hi | ⟨o, hi⟩
    · exact (h.live i hi).1
    · exact h.pending o i hi
  fresh owner size grows index f' hgrow := by
    have hbelow : ∀ old ∈ f.header.directory ++ f.durable.directory,
        old.offset + old.size ≤ f.nextOffset := by
      intro old hold
      rcases List.mem_append.mp hold with hold | hold
      · exact h.below old.region (List.mem_map_of_mem hold)
      · exact h.below old.region (h.durable.subset (List.mem_map_of_mem hold))
    unfold ChunkFile.grow at hgrow
    split at hgrow
    case isTrue => cases hgrow
    case isFalse =>
      split at hgrow
      case isTrue => cases hgrow
      case isFalse =>
        obtain ⟨-, rfl⟩ := Prod.mk.inj hgrow
        exact ⟨_, rfl, rfl, hbelow⟩

/-- A store gets the chunks that were mapped again for it, in their order. -/
theorem acquired_restore {r size : ℕ} (hnone : f.acquired (some r) = []) (n : ℕ)
    (hn : n ≤ (f.pending (some r)).length) :
    (f.restore r size n).acquired (some r) = (f.pending (some r)).take n ∧
      (f.restore r size n).pending (some r) = (f.pending (some r)).drop n := by
  induction n with
  | zero => exact ⟨hnone, rfl⟩
  | succ n ih =>
    obtain ⟨hacquired, hpending⟩ := ih (Nat.le_of_succ_le hn)
    rw [List.drop_eq_getElem_cons hn] at hpending
    rw [ChunkFile.restore, ChunkFile.acquireFor, hpending]
    constructor
    · show Function.update _ (some r) _ (some r) = _
      rw [Function.update_self]
      show (f.restore r size n).acquired (some r) ++ [_] = _
      rw [hacquired, List.take_append_getElem hn]
    · show Function.update _ (some r) _ (some r) = _
      rw [Function.update_self]

/-- Dropping elements keeps a beginning in its places just when it drops none of them. -/
theorem getElem?_filter_iff {p : ℕ → Bool} {l : List ℕ} {n : ℕ} (hn : n ≤ l.length) :
    (∀ k < n, (l.filter p)[k]? = l[k]?) ↔ ∀ i ∈ l.take n, p i = true := by
  constructor
  · intro hkept i hi
    obtain ⟨k, hk, rfl⟩ := List.mem_iff_getElem.mp hi
    rw [List.length_take, Nat.lt_min] at hk
    have hmem : (l.filter p)[k]? = some l[k] := (hkept k hk.1).trans (List.getElem?_eq_getElem hk.2)
    rw [List.getElem_take]
    exact (List.mem_filter.mp (List.mem_of_getElem? hmem)).2
  · intro hall k hk
    have hlength : (l.take n).length = n := List.length_take_of_le hn
    have hsplit : l.filter p = l.take n ++ (l.drop n).filter p := by
      rw [← List.filter_eq_self.mpr hall, ← List.filter_append, List.take_append_drop]
    rw [hsplit, List.getElem?_append_left (by omega), List.getElem?_take_of_lt hk]

/-- A chunk was not given up: it is live, and where the file was closed and not just synced, no
release waits for the commit. -/
def Keeps (f : ChunkFile) (crash : Bool) (i : ℕ) : Prop :=
  liveAt f.header.directory i = true ∧ (crash = true ∨ i ∉ f.quarantine)

/-- The chunks of a row below a mark. -/
def keeps (f : ChunkFile) (marks : ℕ → ℕ) (r : ℕ) : ℕ := { f.header with marks }.keep r

/-- No store gave up a chunk below its mark. -/
def Whole (f : ChunkFile) (marks : ℕ → ℕ) (crash : Bool) : Prop :=
  ∀ r, ∀ i ∈ (f.acquired (some r)).take (f.keeps marks r), f.Keeps crash i

/-- Every chunk of a restored store is the one that backed its slots. -/
def RoutesTo (f f' : ChunkFile) (marks : ℕ → ℕ) : Prop :=
  ∀ r size k, k < f.keeps marks r →
    ((f'.restore r size (f.keeps marks r)).acquired (some r))[k]? = (f.acquired (some r))[k]?

/-- The directory that is opened after a commit. -/
private def closedDirectory (f : ChunkFile) (crash : Bool) : List ChunkEntry :=
  if crash then f.header.directory else punchAll f.header.directory f.quarantine

private theorem liveAt_closedDirectory {crash : Bool} {i : ℕ} :
    liveAt (f.closedDirectory crash) i = true ↔ f.Keeps crash i := by
  cases crash with
  | true => simp [closedDirectory, Keeps]
  | false =>
    show liveAt (punchAll _ _) i = true ↔ _
    rw [liveAt_punchAll, Bool.and_eq_true, decide_eq_true_iff, Keeps]
    simp

private theorem Inv.liveOwned_closedDirectory (h : f.Inv) (crash : Bool) (o : Option ℕ) :
    liveOwned (f.closedDirectory crash) o =
      (f.acquired o ++ f.pending o).filter (liveAt (f.closedDirectory crash)) := by
  cases crash with
  | true => exact h.sequence o
  | false =>
    show liveOwned (punchAll _ _) o = _
    rw [liveOwned_punchAll, h.sequence, List.filter_filter]
    refine List.filter_congr fun i _ => ?_
    rw [Bool.and_comm]
    exact (liveAt_punchAll _).symm

/-- The header that is opened after a commit. -/
private def closedHeader (f : ChunkFile) (marks : ℕ → ℕ) (crash : Bool) : FileHeader :=
  { f.header with directory := f.closedDirectory crash, marks }

private theorem reopen_checkpoint (f : ChunkFile) (marks : ℕ → ℕ) (crash : Bool) :
    (if crash then (f.checkpoint marks true).durable else (f.checkpoint marks true).header) =
      f.closedHeader marks crash := by
  cases crash <;> rfl

/-- Where no store gave up a chunk below its mark, the file is adopted. -/
private theorem Inv.isSome_reopen (h : f.Inv) {marks : ℕ → ℕ} {crash : Bool}
    (hcovers : f.Covers marks) (hwhole : f.Whole marks crash)
    (hrows : f.header.rows.all StoreRow.canonical = true) :
    ((f.checkpoint marks true).reopen crash).isSome = true := by
  have hadopt : adoptable (f.closedHeader marks crash) f.maxStores = true := by
    rw [adoptable, Bool.and_eq_true, Bool.and_eq_true]
    refine ⟨⟨hrows, List.all_eq_true.mpr fun entry hentry => ?_⟩,
      List.all_eq_true.mpr fun r hr => decide_eq_true ?_⟩
    · have htagged : (f.closedHeader marks crash).Tagged f.maxStores := by
        cases crash with
        | true => exact ⟨h.header.table, h.header.owners⟩
        | false =>
          have hmarks : FileHeader.Tagged { f.header with marks } f.maxStores :=
            ⟨h.header.table, h.header.owners⟩
          exact tagged_punchAll hmarks f.quarantine
      rw [Bool.or_eq_true]
      right
      rw [Option.all_eq_true]
      intro r hr
      exact decide_eq_true (Nat.lt_of_lt_of_le (htagged.owners entry hentry r hr) htagged.table)
    · show f.keeps marks r ≤ (liveOwned (f.closedDirectory crash) (some r)).length
      by_cases hrow : r < f.header.rows.length
      · rw [h.liveOwned_closedDirectory, List.filter_append, List.length_append]
        have hfirst : (f.acquired (some r)).take (f.keeps marks r) =
            ((f.acquired (some r)).take (f.keeps marks r)).filter
              (liveAt (f.closedDirectory crash)) :=
          (List.filter_eq_self.mpr fun i hi => liveAt_closedDirectory.mpr (hwhole r i hi)).symm
        have hlength : ((f.acquired (some r)).take (f.keeps marks r)).length = f.keeps marks r :=
          List.length_take_of_le (hcovers r hrow)
        have hle := ((List.take_sublist (f.keeps marks r) (f.acquired (some r))).filter
          (liveAt (f.closedDirectory crash))).length_le
        rw [← hfirst, hlength] at hle
        omega
      · have hnone : f.header.rows[r]? = none := List.getElem?_eq_none (Nat.not_lt.mp hrow)
        rw [keeps, FileHeader.keep, hnone]
        exact Nat.zero_le _
  have hmax : (f.checkpoint marks true).maxStores = f.maxStores := rfl
  unfold ChunkFile.reopen
  rw [reopen_checkpoint]
  dsimp only
  rw [hmax, if_pos hadopt]
  rfl

/-- An adopted file routes its chunks as before just when no store gave up one below its mark. -/
private theorem Inv.routesTo_iff (h : f.Inv) {marks : ℕ → ℕ} {crash : Bool}
    (hcovers : f.Covers marks) (hs : (f.checkpoint marks true).reopen crash = some f') :
    f'.header.rows = f.header.rows ∧ (f.RoutesTo f' marks ↔ f.Whole marks crash) := by
  unfold ChunkFile.reopen at hs
  rw [reopen_checkpoint] at hs
  dsimp only at hs
  split at hs
  case isFalse => cases hs
  case isTrue hadopt =>
    have hpending : ∀ r, f'.pending (some r) =
        (liveOwned (f.closedDirectory crash) (some r)).take (f.keeps marks r) := by
      intro r
      obtain rfl := Option.some.inj hs
      rfl
    have hnone : ∀ r, f'.acquired (some r) = [] := by
      intro r
      obtain rfl := Option.some.inj hs
      rfl
    have hrows : f'.header.rows = f.header.rows := by
      obtain rfl := Option.some.inj hs
      rfl
    have hcovered : ∀ r, f.keeps marks r ≤ (f.acquired (some r)).length := by
      intro r
      by_cases hrow : r < f.header.rows.length
      · exact hcovers r hrow
      · rw [keeps, FileHeader.keep, List.getElem?_eq_none (Nat.not_lt.mp hrow)]
        exact Nat.zero_le _
    have hlength : ∀ r, f.keeps marks r ≤
        (liveOwned (f.closedDirectory crash) (some r)).length := by
      intro r
      rw [adoptable, Bool.and_eq_true] at hadopt
      by_cases hr : r < f.maxStores
      · exact of_decide_eq_true (List.all_eq_true.mp hadopt.2 r (List.mem_range.mpr hr))
      · have hrow : f.header.rows.length ≤ r := h.header.table.trans (Nat.not_lt.mp hr)
        rw [keeps, FileHeader.keep, List.getElem?_eq_none hrow]
        exact Nat.zero_le _
    refine ⟨hrows, ?_⟩
    -- both say the same of each row
    have hrow : ∀ r size, (∀ k < f.keeps marks r,
        ((f'.restore r size (f.keeps marks r)).acquired (some r))[k]? =
          (f.acquired (some r))[k]?) ↔
        ∀ i ∈ (f.acquired (some r)).take (f.keeps marks r), f.Keeps crash i := by
      intro r size
      have hrestored : (f'.restore r size (f.keeps marks r)).acquired (some r) =
          ((f.acquired (some r) ++ f.pending (some r)).filter
            (liveAt (f.closedDirectory crash))).take (f.keeps marks r) := by
        rw [(acquired_restore (hnone r) (f.keeps marks r) ?_).1, hpending, List.take_take,
          Nat.min_self, h.liveOwned_closedDirectory]
        rw [hpending, List.length_take_of_le (hlength r)]
      have hbegin : ∀ k < f.keeps marks r,
          (f.acquired (some r) ++ f.pending (some r))[k]? = (f.acquired (some r))[k]? :=
        fun k hk => List.getElem?_append_left (Nat.lt_of_lt_of_le hk (hcovered r))
      have hlong : f.keeps marks r ≤ (f.acquired (some r) ++ f.pending (some r)).length := by
        rw [List.length_append]
        exact (hcovered r).trans (Nat.le_add_right _ _)
      have hiff := getElem?_filter_iff (p := liveAt (f.closedDirectory crash)) hlong
      rw [List.take_append_of_le_length (hcovered r)] at hiff
      rw [hrestored]
      constructor
      · intro hroutes i hi
        refine liveAt_closedDirectory.mp (hiff.mp (fun k hk => ?_) i hi)
        rw [hbegin k hk, ← hroutes k hk, List.getElem?_take_of_lt hk]
      · intro hwhole k hk
        rw [List.getElem?_take_of_lt hk, ← hbegin k hk]
        exact hiff.mpr (fun i hi => liveAt_closedDirectory.mpr (hwhole i hi)) k hk
    constructor
    · intro hroutes r
      exact (hrow r 0).mp fun k hk => hroutes r 0 k hk
    · intro hwhole r size k hk
      exact (hrow r size).mpr (hwhole r) k hk

end ChunkFile

/-- In every state of every run the regions of a workspace file never overlap, none is for two
owners or both in use and free, and a fresh one lies behind all that the mapped and the durable
directory assign. After a commit the file is adopted again, by a crash or not, when no store gave up
a chunk below its mark, and the chunks of an adopted file come back in their places just then. -/
theorem chunkRouting_iff (f : ChunkFile) (hf : chunkMachine.Reachable Machine.anyEvent f) :
    f.Sound ∧ ∀ (marks : ℕ → ℕ) (crash : Bool), f.Covers marks →
      (f.Whole marks crash → f.header.rows.all StoreRow.canonical = true →
        ((f.checkpoint marks true).reopen crash).isSome = true) ∧
      ∀ f', (f.checkpoint marks true).reopen crash = some f' →
        f'.header.rows = f.header.rows ∧ (f.RoutesTo f' marks ↔ f.Whole marks crash) := by
  have hinv : f.Inv := hf.invariant (fun _ h => ChunkFile.inv_start h)
    fun _ _ _ h _ hs => h.step hs
  refine ⟨hinv.sound, fun marks crash hcovers => ⟨hinv.isSome_reopen hcovers, ?_⟩⟩
  intro f' hs
  exact hinv.routesTo_iff hcovers hs

/-- A file with one store, four slots to a chunk, before the store's third chunk. -/
private def chunkRun : List ChunkEvent :=
  [.storeView ⟨16, 16, 4⟩, .acquire (some 0) 64 true, .acquire (some 0) 64 true]

/-- An empty file. -/
private def emptyChunkFile : ChunkFile where
  page := 4096
  maxChunks := 8
  maxStores := 2
  dataOffset := 16384
  header := ⟨[], [], fun _ => 0⟩
  durable := ⟨[], [], fun _ => 0⟩
  nextOffset := 16384
  pending := fun _ => []
  acquired := fun _ => []
  live := ∅
  fenced := false
  quarantine := []

private theorem chunkMachine_start : chunkMachine.start emptyChunkFile :=
  ⟨by decide, rfl, rfl, rfl, rfl, rfl, rfl, rfl, rfl⟩

/-- A store that keeps its two chunks gets them back in their places. -/
theorem chunkRouting_iff_kept :
    ∃ f f', chunkMachine.Reachable Machine.anyEvent f ∧
      (f.checkpoint (fun _ => 5) true).reopen false = some f' ∧ f.RoutesTo f' fun _ => 5 := by
  obtain ⟨f, hf, hp⟩ := Machine.exists_reachable (M := chunkMachine) Machine.anyEvent chunkRun
    (fun f : ChunkFile => decide (f.header.rows = [⟨16, 16, 4⟩] ∧ f.acquired (some 0) = [0, 1] ∧
      liveAt f.header.directory 0 = true ∧ liveAt f.header.directory 1 = true ∧
      f.quarantine = [])) chunkMachine_start
    (Machine.runAllowed_anyEvent _ _) (by decide +kernel)
  obtain ⟨hrows, hacquired, h0, h1, hq⟩ := of_decide_eq_true hp
  have hkeeps : ∀ r, f.keeps (fun _ => 5) r = if r = 0 then 2 else 0 := by
    intro r
    rw [ChunkFile.keeps, FileHeader.keep, hrows]
    rcases r with _ | r
    · show StoreRow.needed ⟨16, 16, 4⟩ 5 = 2
      decide
    · rfl
  have hcovers : f.Covers fun _ => 5 := by
    intro r hr
    rw [hrows] at hr
    obtain rfl : r = 0 := by simpa using hr
    show f.keeps (fun _ => 5) 0 ≤ _
    rw [hkeeps, hacquired]
    exact Nat.le_refl _
  have hwhole : f.Whole (fun _ => 5) false := by
    intro r i hi
    rw [hkeeps] at hi
    split at hi
    case isTrue hr =>
      subst hr
      rw [hacquired] at hi
      refine ⟨?_, .inr (by rw [hq]; exact List.not_mem_nil)⟩
      rcases List.mem_pair.mp hi with rfl | rfl
      · exact h0
      · exact h1
    case isFalse => cases hi
  obtain ⟨hsome, hroutes⟩ := (chunkRouting_iff f hf).2 (fun _ => 5) false hcovers
  obtain ⟨f', hs⟩ := Option.isSome_iff_exists.mp (hsome hwhole (by rw [hrows]; decide))
  exact ⟨f, f', hf, hs, (hroutes f' hs).2.mpr hwhole⟩

/-- A store that gave up its second chunk and took a third one gets the third in the place of the
second: the file is adopted, since the count suffices. -/
theorem not_chunkRouting :
    ¬ ∀ f, chunkMachine.Reachable Machine.anyEvent f →
      ∀ (marks : ℕ → ℕ) (crash : Bool) (f' : ChunkFile), f.Covers marks →
      (f.checkpoint marks true).reopen crash = some f' → f.RoutesTo f' marks := by
  intro hall
  obtain ⟨f, hf, hp⟩ := Machine.exists_reachable (M := chunkMachine) Machine.anyEvent
    (chunkRun ++ [.release 1, .acquire (some 0) 64 true])
    (fun f : ChunkFile => decide (f.Covers fun _ => 5) &&
      ((f.checkpoint (fun _ => 5) true).reopen false).any fun f' =>
        f.keeps (fun _ => 5) 0 == 2 &&
          ((f'.restore 0 64 2).acquired (some 0))[1]? == some 2 &&
            (f.acquired (some 0))[1]? == some 1) chunkMachine_start
    (Machine.runAllowed_anyEvent _ _) (by decide +kernel)
  rw [Bool.and_eq_true, decide_eq_true_iff, Option.any_eq_true] at hp
  obtain ⟨hcovers, f', hs, hp⟩ := hp
  rw [Bool.and_eq_true, Bool.and_eq_true, beq_iff_eq, beq_iff_eq, beq_iff_eq] at hp
  obtain ⟨⟨hkeeps, hnew⟩, hold⟩ := hp
  have hroutes := hall f hf (fun _ => 5) false f' hcovers hs 0 64 1 (by rw [hkeeps]; decide)
  rw [hkeeps, hnew, hold] at hroutes
  exact absurd (Option.some.inj hroutes) (by decide)

end ArbitraryComposer
