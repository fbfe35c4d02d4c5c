import ArbitraryComposer.Serialize.Reader

/-!
# Unknown Fields

What a document says beyond what the program knows is kept beside the document and folded back in
on a save. A residual is a difference of objects: against a list of known names, or against what a
codec writes back. Arrays and scalars are atomic. In a merge a name that is written already wins,
and two objects are merged name by name.

## Main definitions

- `unknownResidual`, `unknownResidualAt`, `unknownResidualDiff`: the differences.
- `mergeUnknown`: the merge.
- `UnknownFieldStore`: the residuals of a document.

## Main results

- `unknown_fields_restored`: a merge restores what a codec left out, at any depth.
-/

namespace ArbitraryComposer

namespace Json

/-- The members of an object. -/
def members : Json → List (String × Json)
  | object fields => fields
  | _ => []

/-- `is_object`. -/
def isObject : Json → Bool
  | object _ => true
  | _ => false

/-- `contains`. -/
def contains (o : Json) (key : String) : Bool := (o.find key).isSome

/-- The object without a member. -/
def erase (o : Json) (key : String) : Json :=
  match o with
  | object fields => object (fields.filter fun p => p.1 ≠ key)
  | _ => o

/-- The object with a member set. -/
def set (o : Json) (key : String) (value : Json) : Json :=
  object ((o.erase key).members ++ [(key, value)])

/-- An object without members. -/
def isEmpty (o : Json) : Bool := o.members.isEmpty

/-- No object in it has two members of one name. -/
inductive Distinct : Json → Prop
  | intro {o : Json} (names : (o.members.map Prod.fst).Nodup)
      (below : ∀ key v, o.find key = some v → Distinct v) : Distinct o

/-- What is at a path of names, unless an object lacks the next name. An object counts as nothing, and
below a value that is no object there is nothing. -/
def leaf? (o : Json) : List String → Option (Option Json)
  | [] => some (if o.isObject then none else some o)
  | key :: path => (o.find key).elim (if o.isObject then none else some none) (leaf? · path)

/-- Any member is smaller than its object. -/
theorem sizeOf_lt_of_find {o v : Json} {key : String} (h : o.find key = some v) :
    sizeOf v < sizeOf o := by
  cases o with
  | object fields =>
    obtain ⟨l, r, hfields, -⟩ := List.lookup_eq_some_iff.mp h
    have hmem : (key, v) ∈ fields := by simp [hfields]
    have hlt := List.sizeOf_lt_of_mem hmem
    simp only [Prod.mk.sizeOf_spec, object.sizeOf_spec] at hlt ⊢
    omega
  | _ => exact absurd h nofun

end Json

/-- `unknown_residual`. -/
def unknownResidual (o : Json) (known : List String) : Json :=
  .object (o.members.filter fun p => p.1 ∉ known)

/-- `unknown_residual_at`. -/
def unknownResidualAt (o : Json) (key : String) (known : List String) : Json :=
  match o.find key with
  | some (.object fields) => unknownResidual (.object fields) known
  | _ => .object []

mutual

/-- `unknown_residual_diff` of two objects; a codec that writes back anything but an object leaves
the whole input. -/
def unknownResidualDiff (input produced : Json) : Json :=
  match input with
  | .object fields => if produced.isObject then .object (diffMembers fields produced) else input
  | _ => .object []

/-- The loop of `unknown_residual_diff`. -/
def diffMembers (fields : List (String × Json)) (produced : Json) : List (String × Json) :=
  match fields with
  | [] => []
  | (key, value) :: rest =>
    (match produced.find key with
    | none => [(key, value)]
    | some written =>
      if written.isObject && value.isObject then
        let sub := unknownResidualDiff value written
        if sub.isEmpty then [] else [(key, sub)]
      else []) ++ diffMembers rest produced

end

mutual

/-- `merge_unknown`. -/
def mergeUnknown (known stash : Json) : Json :=
  match stash with
  | .object fields => if known.isObject then mergeMembers known fields else known
  | _ => known

/-- The loop of `merge_unknown`. -/
def mergeMembers (known : Json) (fields : List (String × Json)) : Json :=
  match fields with
  | [] => known
  | (key, value) :: rest =>
    mergeMembers (match known.find key with
      | none => known.set key value
      | some written =>
        if written.isObject && value.isObject then known.set key (mergeUnknown written value)
        else known) rest

end

/-- `UnknownScope`. -/
inductive UnknownScope where
  /-- The root of the document and its envelope. -/
  | document
  | composition
  | layer
  | content
  deriving DecidableEq, Repr

/-- `UnknownFieldStore`: the residual kept for an object of the document. -/
abbrev UnknownFieldStore : Type := List ((UnknownScope × ObjectId) × Json)

/-- `UnknownFieldStore::set`; an empty residual is not kept. -/
def UnknownFieldStore.set (store : UnknownFieldStore) (scope : UnknownScope) (id : ObjectId)
    (fields : Json) : UnknownFieldStore :=
  let rest := store.filter fun p => p.1 ≠ (scope, id)
  if fields.isObject && !fields.isEmpty then ((scope, id), fields) :: rest else rest

/-! ## What a merge restores -/

section

variable {known params written : Json}

private theorem lookup_filter (fields : List (String × Json)) (key key' : String) :
    (fields.filter fun p => p.1 ≠ key').lookup key =
      if key = key' then none else fields.lookup key := by
  induction fields with
  | nil => exact (ite_self none).symm
  | cons p fields ih => grind

theorem find_set (ho : known.isObject = true) (key key' : String) (value : Json) :
    (known.set key' value).find key = if key = key' then some value else known.find key := by
  cases known with
  | object fields =>
    show ((fields.filter fun p => p.1 ≠ key') ++ [(key', value)]).lookup key = _
    rw [List.lookup_append, lookup_filter, List.lookup_cons]
    by_cases h : key = key'
    · rw [if_pos h, if_pos h, h, beq_self_eq_true, Option.none_or]
    · rw [if_neg h, if_neg h, beq_false_of_ne h]
      exact Option.or_none
  | _ => cases ho

/-- Where one of the two is not an object, or the residual is empty, nothing is merged. -/
theorem mergeUnknown_eq_self {stash : Json}
    (h : known.isObject = false ∨ stash.members = []) : mergeUnknown known stash = known := by
  cases stash with
  | object fields =>
    rw [mergeUnknown]
    split
    case isTrue ho =>
      obtain rfl : fields = [] := h.resolve_left (by rw [ho]; nofun)
      rw [mergeMembers]
    case isFalse => rfl
  | _ => rfl

/-- Nothing is merged unless both are objects. -/
private theorem merge_of_not_both {value : Json} (h : ¬(known.isObject && value.isObject) = true) :
    mergeUnknown known value = known ∧
      mergeUnknown known (unknownResidualDiff value known) = known := by
  rw [Bool.and_eq_true, not_and_or, Bool.not_eq_true, Bool.not_eq_true] at h
  constructor <;> refine mergeUnknown_eq_self (h.imp_right fun hv => ?_) <;>
    cases value <;> first | rfl | cases hv

/-- What a merge does for one member. -/
theorem mergeStep (ho : known.isObject = true) (key : String) (value : Json)
    (rest : List (String × Json)) :
    ∃ known' : Json, known'.isObject = true ∧
      mergeMembers known ((key, value) :: rest) = mergeMembers known' rest ∧
      (∀ k ≠ key, known'.find k = known.find k) ∧
      known'.find key = some ((known.find key).elim value (mergeUnknown · value)) := by
  have hset : ∀ v : Json, (∀ k ≠ key, (known.set key v).find k = known.find k) ∧
      (known.set key v).find key = some v := fun v =>
    ⟨fun k hk => (find_set ho ..).trans (if_neg hk), (find_set ho ..).trans (if_pos rfl)⟩
  rw [mergeMembers]
  cases hw : known.find key with
  | none => exact ⟨_, rfl, rfl, hset value⟩
  | some w =>
    dsimp only
    split
    case isTrue => exact ⟨_, rfl, rfl, hset _⟩
    case isFalse hboth =>
      exact ⟨_, ho, rfl, fun _ _ => rfl, by rw [hw, Option.elim, (merge_of_not_both hboth).1]⟩

/-- A member goes into the difference and is merged back. -/
private theorem diffStep (ho : known.isObject = true) {key : String} (value : Json)
    (hkey : known.find key = written.find key) (rest : List (String × Json)) :
    ∃ known' : Json, known'.isObject = true ∧
      mergeMembers known (diffMembers ((key, value) :: rest) written) =
        mergeMembers known' (diffMembers rest written) ∧
      (∀ k ≠ key, known'.find k = known.find k) ∧
      known'.find key = some ((written.find key).elim value
        fun v => mergeUnknown v (unknownResidualDiff value v)) := by
  have hstep := fun v => mergeStep ho key v (diffMembers rest written)
  rw [diffMembers]
  rw [hkey] at hstep
  cases hw : written.find key with
  | none =>
    rw [hw] at hstep
    exact hstep value
  | some v =>
    rw [hw] at hkey hstep
    dsimp only
    split
    case isTrue =>
      split
      case isTrue hempty =>
        exact ⟨known, ho, rfl, fun _ _ => rfl, by
          rw [hkey, Option.elim, mergeUnknown_eq_self (.inr (List.isEmpty_iff.mp hempty))]⟩
      case isFalse => exact hstep (unknownResidualDiff value v)
    case isFalse hboth =>
      exact ⟨known, ho, rfl, fun _ _ => rfl, by rw [hkey, Option.elim, (merge_of_not_both hboth).2]⟩

/-- What is found where a difference is merged back. -/
private theorem find_mergeMembers_diff {fields : List (String × Json)}
    (ho : known.isObject = true) (hd : (fields.map Prod.fst).Nodup)
    (heq : ∀ p ∈ fields, known.find p.1 = written.find p.1) (key : String) :
    (mergeMembers known (diffMembers fields written)).isObject = true ∧
      (mergeMembers known (diffMembers fields written)).find key =
        (fields.lookup key).elim (known.find key) fun value =>
          some ((written.find key).elim value
            fun v => mergeUnknown v (unknownResidualDiff value v)) := by
  induction fields generalizing known with
  | nil =>
    rw [diffMembers, mergeMembers]
    exact ⟨ho, rfl⟩
  | cons p rest ih =>
    obtain ⟨key', value⟩ := p
    obtain ⟨hnew, hd⟩ := List.nodup_cons.mp hd
    obtain ⟨known', ho', hmerge, hne, hself⟩ := diffStep ho value (heq _ List.mem_cons_self) rest
    have hne' : ∀ p ∈ rest, p.1 ≠ key' := fun p hp h => hnew (List.mem_map.mpr ⟨p, hp, h⟩)
    obtain ⟨hobject, hfind⟩ := ih ho' hd fun p hp =>
      (hne _ (hne' p hp)).trans (heq p (List.mem_cons_of_mem _ hp))
    rw [hmerge]
    refine ⟨hobject, hfind.trans ?_⟩
    rw [List.lookup_cons]
    by_cases hkey : key = key'
    · subst hkey
      have hnone : rest.lookup key = none :=
        List.lookup_eq_none_iff.mpr fun p hp => bne_iff_ne.mpr (hne' p hp).symm
      rw [hnone, beq_self_eq_true]
      exact hself
    · rw [beq_false_of_ne hkey, hne key hkey]

/-- The members of a merge, name by name. -/
private theorem find_mergeUnknown_diff (hd : params.Distinct) (ho : written.isObject = true)
    (key : String) :
    (mergeUnknown written (unknownResidualDiff params written)).isObject = true ∧
    (mergeUnknown written (unknownResidualDiff params written)).find key =
      (params.find key).elim (written.find key) fun value =>
        some ((written.find key).elim value
          fun v => mergeUnknown v (unknownResidualDiff value v)) := by
  obtain ⟨names, -⟩ := hd
  cases params with
  | object fields =>
    rw [unknownResidualDiff, if_pos ho, mergeUnknown, if_pos ho]
    exact find_mergeMembers_diff ho names (fun _ _ => rfl) key
  | _ =>
    rw [mergeUnknown_eq_self (.inr rfl)]
    exact ⟨ho, rfl⟩

/-- Unknown fields survive. A document is loaded, a codec writes its fields back, and the residual of
the load is merged into them: what the codec wrote is as it wrote it, and at every other path, at any
depth, is what the document had. -/
theorem unknown_fields_restored (hd : params.Distinct) (path : List String) :
    ((mergeUnknown written (unknownResidualDiff params written)).leaf? path).join =
      (written.leaf? path).getD (params.leaf? path).join := by
  induction path generalizing params written with
  | nil =>
    by_cases ho : written.isObject = true
    · rw [Json.leaf?, Json.leaf?, (find_mergeUnknown_diff hd ho "").1, ho]
      rfl
    · rw [mergeUnknown_eq_self (.inl (Bool.eq_false_of_not_eq_true ho))]
      rfl
  | cons key path ih =>
    by_cases ho : written.isObject = true
    · obtain ⟨hobject, hfind⟩ := find_mergeUnknown_diff hd ho key
      obtain ⟨-, below⟩ := hd
      rw [Json.leaf?, Json.leaf?, Json.leaf?, hfind, hobject, ho]
      cases hp : params.find key with
      | none =>
        cases written.find key with
        | none => cases params.isObject <;> rfl
        | some v => cases params.isObject <;> cases hv : v.leaf? path <;> simp [hv]
      | some value =>
        cases written.find key with
        | none => rfl
        | some v => exact ih (below key value hp)
    · have hleaf : written.leaf? (key :: path) = some none := by
        cases written with
        | object => cases ho rfl
        | _ => rfl
      rw [mergeUnknown_eq_self (.inl (Bool.eq_false_of_not_eq_true ho)), hleaf]
      rfl
theorem unknown_fields_restored_note :
    ((mergeUnknown (.object []) (unknownResidualDiff (.object [("note", .string "kept")])
      (.object []))).leaf? ["note"]).join = some (.string "kept") :=
  unknown_fields_restored (.intro (by decide) fun key v h => by
    obtain rfl : v = .string "kept" := by grind [Json.find]
    exact .intro .nil nofun) ["note"]

end

end ArbitraryComposer
