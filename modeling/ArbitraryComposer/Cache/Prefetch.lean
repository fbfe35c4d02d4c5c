import ArbitraryComposer.Cache.Accounting
import ArbitraryComposer.ToMathlib.CountingLoop

/-!
# Prefetching

The cache predicts which keys will be asked for next. The temporal ring of a key has the keys of the
buckets ahead of it, in the direction of playback and up to a horizon. Priming a ring moves those of
its keys that are in the store to another class, and gives back the others, which the caller renders
and inserts: it inserts nothing itself.

The arithmetic is that of 64-bit numbers, and nothing keeps a bucket ahead of a key from lying
beyond the last time there is.

## Main definitions

- `temporalPrefetchRing`: the temporal ring, for keys with any temporal axis.
- `primeRing`: the keys of a ring that are not in the store, and the store after priming.
- `KeyedStore.LeavesResident`: what priming should leave.
- `bucketsAhead`, `BucketsFit`: what the ring should have, and when it can.

## Main results

- `temporalPrefetchRing_iff`: exactly then the ring has these keys, each once.
- `KeyedStore.primed_primeRing`: what priming changes, and that it changes nothing else.
- `KeyedStore.Undisturbed.leavesResident_iff`: when the budget is kept.
-/

namespace ArbitraryComposer

/-! ## The temporal ring -/

/-- What `std::vector::reserve` throws. -/
inductive LengthError where
  /-- More elements are asked for than a vector can have. -/
  | lengthError
  deriving DecidableEq, Repr

/-- The orientation of `temporal_prefetch_ring`: a direction counts by its sign. -/
def orientation (direction : Int32) : ℤ := if direction < 0 then -1 else 1

/-- A round of the loop of `temporal_prefetch_ring`. -/
def temporalRound {κ : Type} (prefetchTemporalStep : κ → ℤ → Int64 → Checked LengthError κ)
    (base : κ) (direction : Int32) (step : Int64) (k : ℤ) (ring : List κ) :
    Checked LengthError (List κ) := do
  let buckets ← signed 64 (orientation direction * k)
  let key ← prefetchTemporalStep base buckets step
  return ring ++ [key]

/-- `temporal_prefetch_ring`, for keys whose temporal axis `prefetch_temporal_step` walks along; a
vector can have `maxSize` elements. -/
def temporalPrefetchRing {κ : Type} (prefetchTemporalStep : κ → ℤ → Int64 → Checked LengthError κ)
    (maxSize : ℕ) (base : κ) (direction : Int32) (step horizon : Int64) :
    Checked LengthError (List κ) :=
  if step.toInt ≤ 0 ∨ horizon.toInt ≤ 0 then .ok []
  else do
    let maxK ← quotient 64 horizon.toInt step.toInt
    -- `ring.reserve(max_k)`
    if maxSize < maxK.toNat then .error (.error .lengthError)
    else forUpTo 64 1 maxK (temporalRound prefetchTemporalStep base direction step) []

section Temporal

variable {κ : Type} (place : Int64 → κ) (origin : Int64) (unit : ℤ) (direction : Int32)
  (step horizon : Int64)

/-- The keys of the buckets that lie a whole number of steps ahead of a key at the origin of its
axis, within the horizon. A bucket is a number of units wide on the axis. -/
def bucketsAhead : Set κ :=
  {key | ∃ (k : ℕ) (t : Int64), 0 < k * step.toInt ∧ k * step.toInt ≤ horizon.toInt ∧
    t.toInt = origin.toInt + orientation direction * k * unit ∧ key = place t}

/-- The number of buckets ahead fits a vector and can be counted, and the last bucket has a place
on the axis. -/
def BucketsFit (maxSize : ℕ) : Prop :=
  0 < step.toInt → 0 < horizon.toInt →
    horizon.toInt / step.toInt ≤ maxSize ∧ horizon.toInt / step.toInt < 2 ^ 63 - 1 ∧
      FitsSigned 64 (origin.toInt + orientation direction * (horizon.toInt / step.toInt) * unit)

variable {place origin unit direction step horizon}

/-- A bucket ahead is one of the first ones. -/
theorem mem_bucketsAhead (hstep : 0 < step.toInt) {key : κ} :
    key ∈ bucketsAhead place origin unit direction step horizon ↔
      ∃ (k : ℤ) (t : Int64), 1 ≤ k ∧ k ≤ horizon.toInt / step.toInt ∧
        t.toInt = origin.toInt + orientation direction * k * unit ∧ key = place t := by
  constructor
  · rintro ⟨k, t, hpos, hle, ht, rfl⟩
    refine ⟨k, t, ?_, (Int.le_ediv_iff_mul_le hstep).mpr hle, ht, rfl⟩
    have hk : (0 : ℤ) < k := pos_of_mul_pos_left hpos hstep.le
    omega
  · rintro ⟨k, t, hpos, hle, ht, rfl⟩
    obtain ⟨n, rfl⟩ := Int.eq_ofNat_of_zero_le (by omega : 0 ≤ k)
    exact ⟨n, t, Int.mul_pos (by omega) hstep, (Int.le_ediv_iff_mul_le hstep).mp hle, ht, rfl⟩

/-- Without steps or without a horizon no bucket is ahead. -/
theorem not_mem_bucketsAhead (h : step.toInt ≤ 0 ∨ horizon.toInt ≤ 0) (key : κ) :
    key ∉ bucketsAhead place origin unit direction step horizon := by
  rintro ⟨k, t, hpos, hle, -, -⟩
  rcases h with h | h
  · exact absurd hpos (not_lt.mpr (mul_nonpos_of_nonneg_of_nonpos (by positivity) h))
  · omega

/-- The keys of the buckets before the `k`-th. -/
private def firstBuckets (place : Int64 → κ) (origin : Int64) (unit : ℤ) (direction : Int32)
    (k : ℤ) : Set κ :=
  {key | ∃ (j : ℤ) (t : Int64), 1 ≤ j ∧ j < k ∧
    t.toInt = origin.toInt + orientation direction * j * unit ∧ key = place t}

/-- A step of a number of buckets takes a key at the origin of its axis to the key at the place that
many units on, if the axis has that place, as long as it stays within the horizon. -/
def WalksAxis (prefetchTemporalStep : κ → ℤ → Int64 → Checked LengthError κ) (base : κ)
    (place : Int64 → κ) (origin : Int64) (unit : ℤ) (step horizon : Int64) : Prop :=
  ∀ k : ℤ, |k * step.toInt| ≤ horizon.toInt → prefetchTemporalStep base k step = do
    let t ← signed 64 (origin.toInt + k * unit)
    return place (.ofInt t)

theorem abs_orientation (direction : Int32) : |orientation direction| = 1 := by
  unfold orientation
  split <;> simp

/-- What lies between two numbers of a type is a number of the type. -/
private theorem fitsSigned_between {bits : ℕ} {a d k n : ℤ} (ha : FitsSigned bits a)
    (hn : FitsSigned bits (a + n * d)) (hk : 0 ≤ k) (hkn : k ≤ n) :
    FitsSigned bits (a + k * d) := by
  rcases le_total 0 d with hd | hd
  · have h1 := mul_nonneg hk hd
    have h2 := mul_le_mul_of_nonneg_right hkn hd
    exact ⟨by linarith [ha.1], by linarith [hn.2]⟩
  · have h1 := mul_nonpos_of_nonneg_of_nonpos hk hd
    have h2 := mul_le_mul_of_nonpos_right hkn hd
    exact ⟨by linarith [hn.1], by linarith [ha.2]⟩

theorem fitsSigned_toInt (t : Int64) : FitsSigned 64 t.toInt := ⟨t.le_toInt, t.toInt_lt⟩

theorem toInt_ofInt_of_fitsSigned {x : ℤ} (h : FitsSigned 64 x) : (Int64.ofInt x).toInt = x :=
  Int64.toInt_ofInt_of_le h.1 h.2

/-- The number of buckets ahead. -/
private theorem quotient_horizon (hstep : 0 < step.toInt) (hhorizon : 0 < horizon.toInt) :
    quotient (ε := LengthError) 64 horizon.toInt step.toInt =
      .ok (horizon.toInt / step.toInt) := by
  have hdiv : horizon.toInt.tdiv step.toInt = horizon.toInt / step.toInt :=
    Int.tdiv_eq_ediv_of_nonneg hhorizon.le
  have hle : horizon.toInt / step.toInt ≤ horizon.toInt := Int.ediv_le_self _ hhorizon.le
  have hnonneg : 0 ≤ horizon.toInt / step.toInt := Int.ediv_nonneg hhorizon.le hstep.le
  have hfits := fitsSigned_toInt horizon
  rw [quotient_eq_ok hstep.ne', hdiv]
  rw [hdiv]
  exact ⟨by linarith [hfits.1, hfits.2], by linarith [hfits.2]⟩

variable {prefetchTemporalStep : κ → ℤ → Int64 → Checked LengthError κ} {base : κ} {maxSize : ℕ}

/-- The ring of a positive step and horizon. -/
private theorem temporalPrefetchRing_eq (hstep : 0 < step.toInt) (hhorizon : 0 < horizon.toInt) :
    temporalPrefetchRing prefetchTemporalStep maxSize base direction step horizon =
      if maxSize < (horizon.toInt / step.toInt).toNat then .error (.error .lengthError)
      else
        forUpTo 64 1 (horizon.toInt / step.toInt)
          (temporalRound prefetchTemporalStep base direction step) [] := by
  rw [temporalPrefetchRing, if_neg (by omega), quotient_horizon hstep hhorizon]
  rfl

/-- A round of the loop adds the key of its bucket, if the axis has a place for it. -/
private theorem temporalRound_eq
    (hwalk : WalksAxis prefetchTemporalStep base place origin unit step horizon)
    (hstep : 0 < step.toInt) {k : ℤ} (hk : 1 ≤ k) (hK : k ≤ horizon.toInt / step.toInt)
    (ring : List κ) : temporalRound prefetchTemporalStep base direction step k ring = do
      let t ← signed 64 (origin.toInt + orientation direction * k * unit)
      return ring ++ [place (.ofInt t)] := by
  have habs : |orientation direction * k| = k := by
    rw [abs_mul, abs_orientation, one_mul, abs_of_pos (by omega)]
  have hle : k * step.toInt ≤ horizon.toInt := (Int.le_ediv_iff_mul_le hstep).mp hK
  have hoffset : |orientation direction * k * step.toInt| ≤ horizon.toInt := by
    rwa [abs_mul, habs, abs_of_pos hstep]
  have hfits : FitsSigned 64 (orientation direction * k) := by
    have hself : k ≤ horizon.toInt := by nlinarith
    have hbound := abs_le.mp (habs.trans_le hself)
    have hhorizon := fitsSigned_toInt horizon
    exact ⟨by linarith [hhorizon.1, hhorizon.2, hbound.1], by linarith [hhorizon.2, hbound.2]⟩
  have hkey := hwalk _ hoffset
  rw [temporalRound, signed_eq_ok hfits]
  show (prefetchTemporalStep base (orientation direction * k) step >>= _) = _
  rw [hkey]
  unfold signed
  split <;> rfl

private theorem not_mem_firstBuckets_one {key : κ} :
    key ∉ firstBuckets place origin unit direction 1 := by
  rintro ⟨j, t, hj, hlt, -⟩
  omega

/-- Before round `k` the ring has the buckets before the `k`-th, and after it this one too. -/
private theorem enumerates_temporalRound
    (hwalk : WalksAxis prefetchTemporalStep base place origin unit step horizon)
    (hplace : Function.Injective place) (hunit : 0 < step.toInt → unit ≠ 0)
    (hstep : 0 < step.toInt) {k : ℤ} (hk : 1 ≤ k) (hK : k ≤ horizon.toInt / step.toInt)
    (hfits : FitsSigned 64 (origin.toInt + orientation direction * k * unit)) {ring : List κ}
    (hall : ring.Enumerates (firstBuckets place origin unit direction k)) :
    (temporalRound prefetchTemporalStep base direction step k ring).Returns fun ring' =>
      ring'.Enumerates (firstBuckets place origin unit direction (k + 1)) := by
  rw [temporalRound_eq hwalk hstep hk hK, signed_eq_ok hfits]
  refine Checked.returns_ok ((hall.concat ?_).congr fun key => ?_)
  · -- the buckets are apart, as the units are
    rintro ⟨j, t, -, hlt, ht, heq⟩
    rw [← hplace heq, toInt_ofInt_of_fitsSigned hfits] at ht
    have hne : orientation direction * unit ≠ 0 :=
      mul_ne_zero (abs_pos.mp (abs_orientation direction ▸ one_pos)) (hunit hstep)
    have hjk : k = j := by
      apply mul_right_cancel₀ hne
      linarith
    omega
  · simp only [firstBuckets, Set.mem_insert_iff, Set.mem_ofPred_eq]
    constructor
    · rintro (rfl | ⟨j, t, hj, hlt, ht, rfl⟩)
      · exact ⟨k, _, hk, by omega, toInt_ofInt_of_fitsSigned hfits, rfl⟩
      · exact ⟨j, t, hj, by omega, ht, rfl⟩
    · rintro ⟨j, t, hj, hlt, ht, rfl⟩
      rcases (by omega : j = k ∨ j < k) with rfl | hlt
      · left
        rw [← ht, Int64.ofInt_toInt]
      · exact Or.inr ⟨j, t, hj, hlt, ht, rfl⟩

/-- What a loop counts to fits, when its last value is not the last of the type. -/
private theorem fitsSigned_succ_of_le {k n : ℤ} (hk : 1 ≤ k) (hkn : k ≤ n) (hn : n < 2 ^ 63 - 1) :
    FitsSigned 64 (k + 1) := by
  norm_num [FitsSigned] at hn ⊢
  omega

/-- The temporal ring has exactly the keys of the buckets ahead, each once, if and only if the
buckets fit. -/
theorem temporalPrefetchRing_iff
    (hwalk : WalksAxis prefetchTemporalStep base place origin unit step horizon)
    (hplace : Function.Injective place) (hunit : 0 < step.toInt → unit ≠ 0) :
    (∃ ring, temporalPrefetchRing prefetchTemporalStep maxSize base direction step horizon =
        .ok ring ∧ ring.Enumerates (bucketsAhead place origin unit direction step horizon)) ↔
      BucketsFit origin unit direction step horizon maxSize := by
  by_cases hnone : step.toInt ≤ 0 ∨ horizon.toInt ≤ 0
  · refine iff_of_true ⟨[], if_pos hnone, List.enumerates_nil (not_mem_bucketsAhead hnone)⟩ ?_
    intro hstep hhorizon
    omega
  have hstep : 0 < step.toInt := by omega
  have hhorizon : 0 < horizon.toInt := by omega
  rw [temporalPrefetchRing_eq hstep hhorizon]
  have hK : 0 ≤ horizon.toInt / step.toInt := Int.ediv_nonneg hhorizon.le hstep.le
  constructor
  · rintro ⟨ring, hring, -⟩ - -
    split at hring
    case isTrue => cases hring
    case isFalse hroom =>
      refine ⟨by omega, ?_⟩
      -- with a bucket ahead, the last round tells that the others fit too
      rcases hK.eq_or_lt with hzero | hpos
      · rw [← hzero]
        refine ⟨by norm_num, ?_⟩
        simpa using fitsSigned_toInt origin
      · obtain ⟨hcount, ring', ring'', hround⟩ := exists_of_forUpTo hring hpos le_rfl
        rw [temporalRound_eq hwalk hstep hpos le_rfl] at hround
        obtain ⟨t, ht, -⟩ := Checked.exists_of_bind hround
        refine ⟨?_, (signed_eq_ok_iff.mp ht).1⟩
        have hlt := hcount.2
        norm_num at hlt ⊢
        omega
  · intro hfits
    obtain ⟨hroom, hcount, hlast⟩ := hfits hstep hhorizon
    rw [if_neg (by omega)]
    have hmid : ∀ k : ℤ, 1 ≤ k → k ≤ horizon.toInt / step.toInt →
        FitsSigned 64 (origin.toInt + orientation direction * k * unit) := by
      intro k hk hkK
      have hbetween := fitsSigned_between (d := orientation direction * unit) (k := k)
        (fitsSigned_toInt origin) (n := horizon.toInt / step.toInt)
        (by convert hlast using 2; ring) (by omega) hkK
      convert hbetween using 2
      ring
    have hrun := forUpTo_returns
      (fun k (ring : List κ) => ring.Enumerates (firstBuckets place origin unit direction k))
      (List.enumerates_nil fun key => not_mem_firstBuckets_one)
      (fun k ring hk hkK hall => enumerates_temporalRound hwalk hplace hunit hstep hk hkK
        (hmid k hk hkK) hall)
      fun k hk hkK => fitsSigned_succ_of_le hk hkK hcount
    obtain ⟨ring, hring, hall⟩ := hrun
    refine ⟨ring, hring, hall.congr fun key => ?_⟩
    rw [mem_bucketsAhead hstep, max_eq_right (by omega)]
    simp only [firstBuckets, Set.mem_ofPred_eq, Int.lt_add_one_iff]

end Temporal

/-! ## Priming -/

namespace KeyedStore

variable {κ ν : Type} [DecidableEq κ]

/-- A turn of the loop of `prime_ring`, on the absent keys so far and the store. -/
def primeKey (klass : PriorityClass) (state : List κ × KeyedStore κ ν) (key : κ) :
    List κ × KeyedStore κ ν :=
  match state.2.lookup key with
  -- the hold that tells of the hit ends before the entry is moved
  | (some id, s) => (state.1, (s.unpin id).reclassify key klass)
  | (none, s) => (state.1 ++ [key], s)

/-- `prime_ring`: the absent keys, and the store. -/
def primeRing (s : KeyedStore κ ν) (ring : List κ) (klass : PriorityClass) :
    List κ × KeyedStore κ ν :=
  ring.foldl (primeKey klass) ([], s)

/-- What priming does to a store: entries whose keys are in the ring change their class, some are
used, and nothing else changes but the counts of hits and misses. -/
structure Primed (klass : PriorityClass) (ring : List κ) (s s' : KeyedStore κ ν) : Prop where
  /-- Every entry is where it was, with its value, size and pins. -/
  map_eq : ∃ recency : κ × CacheEntry ν → ℕ, s'.map = s.map.map fun q =>
    (q.1, { q.2 with klass := if q.1 ∈ ring then klass else q.2.klass, recency := recency q })
  /-- No entry is orphaned, and no orphan goes. -/
  orphans_eq : s'.orphans = s.orphans
  /-- The resident bytes are the same. -/
  resident_eq : s'.resident = s.resident
  /-- The budget is the same. -/
  budget_eq : s'.budget = s.budget
  /-- Nothing is evicted. -/
  evictions_eq : s'.evictions = s.evictions
  /-- Nothing is destroyed. -/
  dropped_eq : s'.dropped = s.dropped
  /-- Nothing is allocated. -/
  next_eq : s'.next = s.next

variable {s s' s'' : KeyedStore κ ν} {holds : List ℕ} {key : κ} {p : κ × CacheEntry ν}
  {klass : PriorityClass} {ring : List κ}

theorem Primed.refl : Primed klass [] s s :=
  ⟨⟨fun q => q.2.recency, by simp⟩, rfl, rfl, rfl, rfl, rfl, rfl⟩

/-- The keys in the store stay. -/
theorem Primed.keys_eq (h : Primed klass ring s s') : s'.map.map Prod.fst = s.map.map Prod.fst := by
  obtain ⟨recency, hmap⟩ := h.map_eq
  simp [hmap, Function.comp_def]

theorem Primed.trans_concat (h : Primed klass ring s s') (h' : Primed klass [key] s' s'') :
    Primed klass (ring ++ [key]) s s'' := by
  obtain ⟨recency, hmap⟩ := h.map_eq
  obtain ⟨recency', hmap'⟩ := h'.map_eq
  refine ⟨⟨fun q => recency' (q.1, { q.2 with
      klass := if q.1 ∈ ring then klass else q.2.klass, recency := recency q }), ?_⟩,
    h'.orphans_eq.trans h.orphans_eq, h'.resident_eq.trans h.resident_eq,
    h'.budget_eq.trans h.budget_eq, h'.evictions_eq.trans h.evictions_eq,
    h'.dropped_eq.trans h.dropped_eq, h'.next_eq.trans h.next_eq⟩
  rw [hmap', hmap, List.map_map]
  refine List.map_congr_left fun q _ => ?_
  by_cases hkey : q.1 = key
  · simp [hkey]
  · simp [hkey]

theorem find?_eq_none : s.find? key = none ↔ key ∉ s.map.map Prod.fst := by
  rw [find?, List.find?_eq_none, List.mem_map]
  simp only [decide_eq_true_eq, not_exists, not_and]

omit [DecidableEq κ] in
/-- The hold of a look-up ends: the entry was used, and is pinned as before. -/
private theorem unpin_use (h : s.Inv holds) (hp : p ∈ s.map) (tick hits : ℕ) :
    ({ s.modifyEntry p.2.id (CacheEntry.use tick) with hits, tick } : KeyedStore κ ν).unpin p.2.id =
      { s with
        map := s.map.map fun q =>
          (q.1, { q.2 with recency := if q.2.id = p.2.id then tick else q.2.recency })
        hits, tick } := by
  have hpe : p.2 ∈ s.entries := List.mem_append_left _ (List.mem_map_of_mem hp)
  have hone : ∀ e : CacheEntry ν, (if (if e.id = p.2.id then e.use tick else e).id = p.2.id then
      (if e.id = p.2.id then e.use tick else e).unpin
      else if e.id = p.2.id then e.use tick else e) =
        { e with recency := if e.id = p.2.id then tick else e.recency } := by
    intro e
    by_cases he : e.id = p.2.id
    · simp [he, CacheEntry.use, CacheEntry.unpin]
    · simp [he]
  -- an orphan has another identity
  have horphans : s.orphans.map (fun e =>
      { e with recency := if e.id = p.2.id then tick else e.recency }) = s.orphans := by
    refine (List.map_congr_left fun e he => ?_).trans (List.map_id _)
    have hids := h.nodup_ids
    rw [entries, List.map_append, List.nodup_append] at hids
    have hne : e.id ≠ p.2.id := fun heq => hids.2.2 _
      (List.mem_map_of_mem (List.mem_map_of_mem hp)) _ (List.mem_map_of_mem he) heq.symm
    simp [hne]
  have hmodified : ({ s.modifyEntry p.2.id (CacheEntry.use tick) with hits, tick } :
      KeyedStore κ ν).modifyEntry p.2.id CacheEntry.unpin = { s with
        map := s.map.map fun q =>
          (q.1, { q.2 with recency := if q.2.id = p.2.id then tick else q.2.recency })
        hits, tick } := by
    simp only [modifyEntry, List.map_map, Function.comp_def, hone]
    rw [horphans]
  rw [unpin, hmodified]
  split
  case h_2 => rfl
  case h_1 e he =>
    -- what is found is the entry of the map, which is not removed
    refine if_neg fun hgone => ?_
    have hid : e.id = p.2.id := by simpa using List.find?_some he
    have hmem : e ∈ s.entries.map fun e =>
        { e with recency := if e.id = p.2.id then tick else e.recency } := by
      have hmem := List.mem_of_find?_eq_some he
      rw [entries, List.map_append, horphans]
      simpa [entries, List.map_map, Function.comp_def] using hmem
    obtain ⟨e₀, he₀, rfl⟩ := List.mem_map.mp hmem
    obtain rfl : e₀ = p.2 := List.inj_on_of_nodup_map h.nodup_ids he₀ hpe hid
    exact Bool.false_ne_true ((h.live p hp).symm.trans hgone.2)

/-- A turn of the loop at a key that is not in the store. -/
private theorem primeKey_of_absent (h : s.find? key = none) (absent : List κ) :
    primeKey klass (absent, s) key = (absent ++ [key], { s with misses := s.misses + 1 }) := by
  rw [primeKey, lookup, h]

/-- A turn of the loop at a key that is in the store. -/
private theorem primeKey_of_resident (h : s.Inv holds) (hp : s.find? key = some p)
    (absent : List κ) : primeKey klass (absent, s) key =
      (absent, KeyedStore.reclassify { s with
        map := s.map.map fun q =>
          (q.1, { q.2 with recency := if q.2.id = p.2.id then s.tick + 1 else q.2.recency })
        hits := s.hits + 1, tick := s.tick + 1 } key klass) := by
  rw [primeKey, lookup, hp]
  exact congrArg (fun t : KeyedStore κ ν => (absent, t.reclassify key klass))
    (unpin_use h (find?_eq_some hp).1 (s.tick + 1) (s.hits + 1))

/-- A turn of the loop keeps the books, and tells whether the key is absent. -/
theorem primed_primeKey (h : s.Inv holds) (absent : List κ) (key : κ) (klass : PriorityClass) :
    (primeKey klass (absent, s) key).2.Inv holds ∧
      Primed klass [key] s (primeKey klass (absent, s) key).2 ∧
      (primeKey klass (absent, s) key).1 =
        absent ++ if key ∈ s.map.map Prod.fst then [] else [key] := by
  have hlookup := h.lookup key
  cases hf : s.find? key with
  | none =>
    have hkey := find?_eq_none.mp hf
    rw [lookup, hf] at hlookup
    rw [primeKey_of_absent hf, if_neg hkey]
    refine ⟨hlookup, ⟨⟨fun q => q.2.recency, ?_⟩, rfl, rfl, rfl, rfl, rfl, rfl⟩, rfl⟩
    refine ((List.map_congr_left fun q hq => ?_).trans (List.map_id _)).symm
    have hne : q.1 ≠ key := fun heq => hkey (heq ▸ List.mem_map_of_mem hq)
    simp [hne]
  | some p =>
    obtain ⟨hp, rfl⟩ := find?_eq_some hf
    rw [lookup, hf] at hlookup
    have hinv := (hlookup.unpin List.mem_cons_self).reclassify p.1 klass
    have hholds : (p.2.id :: holds).erase p.2.id = holds := List.erase_cons_head ..
    rw [primeKey_of_resident h hf, if_pos (List.mem_map_of_mem hp), List.append_nil]
    refine ⟨?_, ⟨⟨fun q => if q.2.id = p.2.id then s.tick + 1 else q.2.recency, ?_⟩,
      rfl, rfl, rfl, rfl, rfl, rfl⟩, rfl⟩
    · rw [← unpin_use h hp, ← hholds]
      exact hinv
    · simp only [reclassify, List.map_map]
      refine List.map_congr_left fun q _ => ?_
      by_cases hq : q.1 = p.1
      · simp [hq]
      · simp [hq]

/-- Priming keeps the books, changes the class of the entries of the ring, and gives back its
absent keys in their order. -/
theorem primed_primeRing (h : s.Inv holds) (ring : List κ) (klass : PriorityClass) :
    (primeRing s ring klass).2.Inv holds ∧ Primed klass ring s (primeRing s ring klass).2 ∧
      (primeRing s ring klass).1 = ring.filter fun key => key ∉ s.map.map Prod.fst := by
  induction ring using List.reverseRecOn with
  | nil => exact ⟨h, .refl, rfl⟩
  | append_singleton ring key ih =>
    obtain ⟨hinv, hprimed, habsent⟩ := ih
    have hfold : primeRing s (ring ++ [key]) klass =
        primeKey klass ((primeRing s ring klass).1, (primeRing s ring klass).2) key := by
      simp [primeRing, List.foldl_append]
    obtain ⟨hinv', hprimed', habsent'⟩ := primed_primeKey hinv (primeRing s ring klass).1 key klass
    rw [hfold]
    refine ⟨hinv', hprimed.trans_concat hprimed', ?_⟩
    rw [habsent', hprimed.keys_eq, habsent, List.filter_append]
    congr 1
    by_cases hkey : key ∈ s.map.map Prod.fst
    · simp [hkey]
    · simp [hkey]

/-! ## What priming leaves -/

/-- The entries of a store stay, and so do its bytes and its budget. -/
structure Undisturbed {κ ν : Type} (s s' : KeyedStore κ ν) : Prop where
  /-- Every entry is there, under its key and with its value. -/
  entry : ∀ q ∈ s.map, ∃ q' ∈ s'.map, q'.1 = q.1 ∧ q'.2.id = q.2.id ∧ q'.2.value = q.2.value
  /-- The bytes stay. -/
  resident_eq : s'.resident = s.resident
  /-- The budget stays. -/
  budget_eq : s'.budget = s.budget

/-- What priming should leave: every entry of the store, and the resident bytes within the
budget. -/
structure LeavesResident {κ ν : Type} (s s' : KeyedStore κ ν) : Prop where
  /-- Every entry is there, under its key and with its value. -/
  entry : ∀ q ∈ s.map, ∃ q' ∈ s'.map, q'.1 = q.1 ∧ q'.2.id = q.2.id ∧ q'.2.value = q.2.value
  /-- The resident bytes are within the budget. -/
  within : s'.resident ≤ s'.budget

theorem Primed.undisturbed (h : Primed klass ring s s') : s.Undisturbed s' := by
  obtain ⟨recency, hmap⟩ := h.map_eq
  refine ⟨fun q hq => ?_, h.resident_eq, h.budget_eq⟩
  rw [hmap]
  exact ⟨_, List.mem_map_of_mem hq, rfl, rfl, rfl⟩

omit [DecidableEq κ] in
theorem Undisturbed.trans (h : s.Undisturbed s') (h' : s'.Undisturbed s'') :
    s.Undisturbed s'' := by
  refine ⟨fun q hq => ?_, h'.resident_eq.trans h.resident_eq, h'.budget_eq.trans h.budget_eq⟩
  obtain ⟨q', hq', hkey, hid, hvalue⟩ := h.entry q hq
  obtain ⟨q'', hq'', hkey', hid', hvalue'⟩ := h'.entry q' hq'
  exact ⟨q'', hq'', hkey'.trans hkey, hid'.trans hid, hvalue'.trans hvalue⟩

omit [DecidableEq κ] in
/-- The budget is soft: the bytes are within it if and only if they were before. -/
theorem Undisturbed.leavesResident_iff (h : s.Undisturbed s') :
    s.LeavesResident s' ↔ s.resident ≤ s.budget := by
  rw [← h.resident_eq, ← h.budget_eq]
  exact ⟨LeavesResident.within, fun hwithin => ⟨h.entry, hwithin⟩⟩

end KeyedStore

end ArbitraryComposer
