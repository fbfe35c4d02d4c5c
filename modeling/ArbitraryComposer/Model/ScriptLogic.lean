import ArbitraryComposer.Model.DocMap
import ArbitraryComposer.Model.Mutators
import ArbitraryComposer.ToMathlib.Chains

/-!
# Mutator Scripts on Maps

The meaning of a mutator script over a map of records alone. The allocator may refuse any put or
erase, and a script that was refused publishes nothing, so only the runs to the end count.

## Main definitions

- `DocMap.Chain`: the chunks that `read_chunk_chain` finds.
- `Script.Ensures`: what holds at the end of every run of a script that is not refused.
- `Script.exec`: that run, executed.

## Main results

- `Script.ensures_bind` and one rule for each composite operation.
- `Script.ensures_exec`: the run that is not refused is the one executed.
-/

namespace ArbitraryComposer

/-- The next chunk of a chain. -/
def Payload.next : Payload → ObjectId
  | .orderChunk c => c.next
  | .textChunk c => c.next
  | _ => 0

/-- The kind of a record by its shape. -/
def Payload.kind : Payload → RecordKind
  | .composition _ => .composition
  | .layer _ => .layer
  | .content _ => .content
  | .orderChunk _ => .layerOrderChunk
  | .textChunk _ => .textChunk

theorem ObjectRecord.kind_eq (r : ObjectRecord) : r.kind = r.as.kind := by
  unfold kind Payload.kind
  cases r.as <;> rfl

namespace DocMap

/-- The record shapes of a map. -/
def payloads (m : DocMap) : ObjectId → Option Payload := fun k => (m k).map ObjectRecord.as

/-- Whether a chain of a kind ends at an id: it is invalid, or has no record of the kind. -/
def ChainEnds (m : DocMap) (kind : RecordKind) (id : ObjectId) : Prop :=
  id.valid = true → ∀ as, m.payloads id = some as → as.kind ≠ kind

/-- The chunks of a kind from a head on, with their ids. -/
def Chain (m : DocMap) (kind : RecordKind) (head : ObjectId) (l : List (ObjectId × Payload)) :
    Prop :=
  Chains.Complete (m.ChainEnds kind) Payload.next (fun _ => True) m.payloads head l

variable {m : DocMap} {kind : RecordKind} {head : ObjectId} {r : ObjectRecord}
  {l : List (ObjectId × Payload)}

theorem Chain.stop (h : head.valid = true → ∀ r, m head = some r → r.kind ≠ kind) :
    m.Chain kind head [] := by
  refine Chains.Complete.stop fun hv as has => ?_
  obtain ⟨r, hr, rfl⟩ := Option.map_eq_some_iff.mp has
  rw [← r.kind_eq]
  exact h hv r hr

theorem Chain.chunk (hv : head.valid = true) (hr : m head = some r) (hk : r.kind = kind)
    (h : m.Chain kind r.as.next l) : m.Chain kind head ((head, r.as) :: l) := by
  have has : m.payloads head = some r.as := by rw [payloads, hr, Option.map_some]
  exact Chains.Complete.link (fun hends => hends hv _ has (r.kind_eq ▸ hk)) has trivial h

/-- `read_chunk_chain` on a map; `none` when the chain comes back to a chunk it has visited. -/
def readChain (m : DocMap) (kind : RecordKind) :
    ℕ → ObjectId → Option (List (ObjectId × Payload))
  | 0, _ => none
  | turns + 1, cur =>
    if cur.valid then
      match m.payloads cur with
      | some as =>
        if as.kind = kind then (m.readChain kind turns as.next).map ((cur, as) :: ·) else some []
      | none => some []
    else
      some []

/-- Reading a chain takes one more turn than it has chunks. -/
theorem readChain_of_chain {turns : ℕ} (h : m.Chain kind head l) (hlt : l.length < turns) :
    m.readChain kind turns head = some l := by
  induction h generalizing turns with
  | @stop head hends =>
    obtain ⟨turns, rfl⟩ := Nat.exists_eq_succ_of_ne_zero (Nat.ne_of_gt hlt)
    rw [readChain]
    split
    · rename_i hv
      cases has : m.payloads head with
      | none => rfl
      | some as => exact if_neg (hends hv as has)
    · rfl
  | @link head as rest hends has _ _ ih =>
    obtain ⟨turns, rfl⟩ := Nat.exists_eq_succ_of_ne_zero (Nat.ne_of_gt (Nat.zero_lt_of_lt hlt))
    simp only [ChainEnds, not_forall, not_not] at hends
    obtain ⟨hv, as', has', hk⟩ := hends
    obtain rfl : as = as' := Option.some.inj (has.symm.trans has')
    rw [readChain, if_pos hv, has]
    simp only [if_pos hk]
    rw [ih (Nat.lt_of_succ_lt_succ hlt), Option.map_some]

/-- A chain has at most one chunk for each id. -/
theorem Chain.length_le (h : m.Chain kind head l) : l.length ≤ 2 ^ 64 := by
  have hnodup := (Chains.Complete.nodup h).map (f := UInt64.toFin) fun a b => UInt64.toFin_inj.mp
  have hcard := hnodup.length_le_card
  rw [Fintype.card_fin, List.length_map, List.length_map] at hcard
  exact hcard

end DocMap

namespace Script

variable {α β : Type} {stamp : ℕ}

/-- `Q` holds of the result, the map and the next id at the end of every run that is not
refused. -/
def Ensures (stamp : ℕ) (Q : α → DocMap → ObjectId → Prop) :
    Script α → DocMap → ObjectId → Prop
  | done a, m, n => Q a m n
  | allocateId k, m, n => n.synthetic = false → (k n).Ensures stamp Q m (n + 1)
  | lookup key k, m, n => (k ((m key).map ObjectRecord.as)).Ensures stamp Q m n
  | chain kind head k, m, n => ∀ l, m.Chain kind head l → (k l).Ensures stamp Q m n
  | put key as _ k, m, n =>
    k.Ensures stamp Q (Function.update m key (some ⟨key, stamp, as⟩)) n
  | erase key k, m, n => k.Ensures stamp Q (Function.update m key none) n
  | noteState _ k, m, n => k.Ensures stamp Q m n

/-- The rule for sequencing. -/
theorem ensures_bind (x : Script α) (f : α → Script β) (Q : β → DocMap → ObjectId → Prop)
    (m : DocMap) (n : ObjectId) :
    (x >>= f).Ensures stamp Q m n ↔
      x.Ensures stamp (fun a m n => (f a).Ensures stamp Q m n) m n := by
  change (x.bind f).Ensures stamp Q m n ↔ _
  induction x generalizing m n with
  | done a => exact Iff.rfl
  | allocateId k ih => exact forall_congr' fun _ => ih n m (n + 1)
  | lookup key k ih => exact ih _ m n
  | chain kind head k ih => exact forall₂_congr fun l _ => ih l m n
  | put key as retains k ih => exact ih _ n
  | erase key k ih => exact ih _ n
  | noteState e k ih => exact ih m n

/-- What a script ensures may be weakened. -/
theorem Ensures.mono {x : Script α} {Q Q' : α → DocMap → ObjectId → Prop} {m : DocMap}
    {n : ObjectId} (h : x.Ensures stamp Q m n) (imp : ∀ a m n, Q a m n → Q' a m n) :
    x.Ensures stamp Q' m n := by
  induction x generalizing m n with
  | done a => exact imp a m n h
  | allocateId k ih => exact fun valid => ih n (h valid)
  | lookup key k ih => exact ih _ h
  | chain kind head k ih => exact fun l hl => ih l (h l hl)
  | put key as retains k ih => exact ih h
  | erase key k ih => exact ih h
  | noteState e k ih => exact ih h

/-- A script ensures together what it ensures. -/
theorem Ensures.and {x : Script α} {Q Q' : α → DocMap → ObjectId → Prop} {m : DocMap}
    {n : ObjectId} (h : x.Ensures stamp Q m n) (h' : x.Ensures stamp Q' m n) :
    x.Ensures stamp (fun a m n => Q a m n ∧ Q' a m n) m n := by
  induction x generalizing m n with
  | done a => exact ⟨h, h'⟩
  | allocateId k ih => exact fun valid => ih n (h valid) (h' valid)
  | lookup key k ih => exact ih _ h h'
  | chain kind head k ih => exact fun l hl => ih l (h l hl) (h' l hl)
  | put key as retains k ih => exact ih h h'
  | erase key k ih => exact ih h h'
  | noteState e k ih => exact ih h h'

/-- A script ensures what always holds. -/
theorem ensures_true (x : Script α) (m : DocMap) (n : ObjectId) :
    x.Ensures stamp (fun _ _ _ => True) m n := by
  induction x generalizing m n with
  | done a => trivial
  | allocateId k ih => exact fun _ => ih n m (n + 1)
  | lookup key k ih => exact ih _ m n
  | chain kind head k ih => exact fun l _ => ih l m n
  | put key as retains k ih => exact ih _ n
  | erase key k ih => exact ih _ n
  | noteState e k ih => exact ih m n

/-- A script on a map, when the allocator refuses nothing; `none` where the model stops. -/
def exec (stamp : ℕ) : Script α → DocMap → ObjectId → Option (α × DocMap × ObjectId)
  | done a, m, n => some (a, m, n)
  | allocateId k, m, n => if n.synthetic then none else (k n).exec stamp m (n + 1)
  | lookup key k, m, n => (k (m.payloads key)).exec stamp m n
  | chain kind head k, m, n =>
    (m.readChain kind (2 ^ 64 + 1) head).bind fun l => (k l).exec stamp m n
  | put key as _ k, m, n => k.exec stamp (Function.update m key (some ⟨key, stamp, as⟩)) n
  | erase key k, m, n => k.exec stamp (Function.update m key none) n
  | noteState _ k, m, n => k.exec stamp m n

/-- The run that is not refused is the one executed. -/
theorem ensures_exec (x : Script α) (m : DocMap) (n : ObjectId) :
    x.Ensures stamp (fun a m' n' => x.exec stamp m n = some (a, m', n')) m n := by
  induction x generalizing m n with
  | done a => rfl
  | allocateId k ih =>
    intro valid
    rw [exec, valid]
    exact ih n m (n + 1)
  | lookup key k ih => exact ih _ m n
  | chain kind head k ih =>
    intro l hl
    rw [exec, DocMap.readChain_of_chain hl (Nat.lt_succ_of_le hl.length_le)]
    exact ih l m n
  | put key as retains k ih => exact ih _ n
  | erase key k ih => exact ih _ n
  | noteState e k ih => exact ih m n

section

variable {Q : α → DocMap → ObjectId → Prop} {R : Unit → DocMap → ObjectId → Prop} {m : DocMap}
  {n : ObjectId}

@[simp]
theorem ensures_find (key : ObjectId) {Q : Option Payload → DocMap → ObjectId → Prop} :
    (find key).Ensures stamp Q m n ↔ Q ((m key).map ObjectRecord.as) m n := Iff.rfl

@[simp]
theorem ensures_set (key : ObjectId) (as : Payload) : (set key as).Ensures stamp R m n ↔
    R () (Function.update m key (some ⟨key, stamp, as⟩)) n := Iff.rfl

@[simp]
theorem ensures_setRetained (key : ObjectId) (as : Payload) :
    (setRetained key as).Ensures stamp R m n ↔
      R () (Function.update m key (some ⟨key, stamp, as⟩)) n := Iff.rfl

end

/-- A map without some records. -/
def without (m : DocMap) (ids : List ObjectId) : DocMap := fun k => if k ∈ ids then none else m k

/-- The rule for erasing records. -/
theorem ensures_eraseAll (ids : List ObjectId) (R : Unit → DocMap → ObjectId → Prop) (m : DocMap)
    (n : ObjectId) : (eraseAll ids).Ensures stamp R m n ↔ R () (without m ids) n := by
  induction ids generalizing m with
  | nil => exact Iff.of_eq (congrArg (fun m => R () m n) (funext fun k => by simp [without]))
  | cons id ids ih =>
    change (eraseAll ids).Ensures stamp R (Function.update m id none) n ↔ _
    rw [ih]
    refine Iff.of_eq (congrArg (fun m => R () m n) (funext fun k => ?_))
    by_cases hk : k = id <;> simp [without, hk]

/-- A map with some new records. -/
def withAll (stamp : ℕ) (m : DocMap) (records : List (ObjectId × Payload)) : DocMap :=
  records.foldl (fun m p => Function.update m p.1 (some ⟨p.1, stamp, p.2⟩)) m

/-- The rule for inserting records in order. -/
theorem ensures_setAll (records : List (ObjectId × Payload)) (R : Unit → DocMap → ObjectId → Prop)
    (m : DocMap) (n : ObjectId) :
    (setAll records).Ensures stamp R m n ↔ R () (withAll stamp m records) n := by
  induction records generalizing m with
  | nil => exact Iff.rfl
  | cons p records ih => exact ih _

/-- Records that are not inserted stay as they are. -/
theorem withAll_of_notMem {m : DocMap} {records : List (ObjectId × Payload)} {k : ObjectId}
    (hk : k ∉ records.map Prod.fst) : withAll stamp m records k = m k := by
  induction records generalizing m with
  | nil => rfl
  | cons p records ih =>
    rw [List.map_cons, List.mem_cons, not_or] at hk
    exact (ih hk.2).trans (Function.update_of_ne hk.1 _ _)

/-- A record inserted once is the one found. -/
theorem withAll_of_mem {m : DocMap} {records : List (ObjectId × Payload)}
    (nodup : (records.map Prod.fst).Nodup) {p : ObjectId × Payload} (hp : p ∈ records) :
    withAll stamp m records p.1 = some ⟨p.1, stamp, p.2⟩ := by
  induction records generalizing m with
  | nil => exact absurd hp List.not_mem_nil
  | cons q records ih =>
    rw [List.map_cons, List.nodup_cons] at nodup
    rcases List.mem_cons.mp hp with rfl | hp
    · exact (withAll_of_notMem nodup.1).trans (Function.update_self ..)
    · exact ih nodup.2 hp

/-- Ids handed out in one go: distinct, from the old next id on and below the new one. -/
structure Fresh (ids : List ObjectId) (n n' : ObjectId) : Prop where
  /-- The counter grows. -/
  le : n.toNat ≤ n'.toNat
  /-- The ids lie between. -/
  bound : ∀ id ∈ ids, n.toNat ≤ id.toNat ∧ id.toNat < n'.toNat
  /-- No id is handed out twice. -/
  nodup : ids.Nodup
  /-- The ids are in the model's half of the id space. -/
  model : ∀ id ∈ ids, id.synthetic = false

/-- A next id in the model's half of the id space leaves room for one more. -/
theorem toNat_add_one {n : ObjectId} (h : n.synthetic = false) :
    (n + 1).toNat = n.toNat + 1 := by
  have hlt : n.toNat < 2 ^ 63 := by simpa [ObjectId.synthetic] using h
  rw [UInt64.toNat_add]
  simp
  omega

/-- The rule for allocating ids. -/
theorem ensures_allocateIds {Q : List ObjectId → DocMap → ObjectId → Prop} {m : DocMap}
    {count : ℕ} {n : ObjectId}
    (h : ∀ ids n', ids.length = count → Fresh ids n n' → Q ids m n') :
    (allocateIds count).Ensures stamp Q m n := by
  induction count generalizing n Q with
  | zero => exact h [] n rfl ⟨le_rfl, fun _ hid => absurd hid List.not_mem_nil, List.nodup_nil,
      fun _ hid => absurd hid List.not_mem_nil⟩
  | succ count ih =>
    rw [allocateIds, ensures_bind]
    intro valid
    change ((allocateIds count) >>= fun ids => pure (n :: ids)).Ensures stamp Q m (n + 1)
    rw [ensures_bind]
    refine ih fun ids n' length fresh => ?_
    have next := toNat_add_one valid
    refine h (n :: ids) n' (by simp [length]) ⟨by have := fresh.le; omega, ?_, ?_,
      List.forall_mem_cons.mpr ⟨valid, fresh.model⟩⟩
    · intro id hid
      rcases List.mem_cons.mp hid with rfl | hid
      · have := fresh.le
        omega
      · have := fresh.bound id hid
        omega
    · refine List.nodup_cons.mpr ⟨fun again => ?_, fresh.nodup⟩
      have := (fresh.bound n again).1
      omega

end Script

end ArbitraryComposer
