import ArbitraryComposer.KindImage.PyramidCache
import ArbitraryComposer.ToMathlib.Recency

/-!
# The Books of the Pyramid Cache

Whatever the order in which threads use the cache and move their pins, the resident bytes are those
of the resident pyramids, the pins of an entry are counted once each, a pinned entry stays resident,
and the cache is trimmed to its budget as far as the pins allow, the least recently used entry
first. What is evicted is decoded again from the bytes that were kept, so no answer depends on the
budget.

## Main definitions

- `PyramidCache.Inv`: what holds of a cache, given the number of pins on each entry.
- `PyramidCache.Keeps`: no entry goes away or changes its source.
- `PyramidCache.Fits`: the cache is trimmed.

## Main results

- `PyramidCache.Inv.evictToFit`: trimming keeps the books.
- `PyramidCache.Inv.access`: an entry can always be read.
- `PyramidPins.transparent_of_reachable`: the promises hold in every interleaving.
-/

namespace ArbitraryComposer

variable {π : Type} {d : PyramidDecoder π}

/-! ## What holds of an entry -/

/-- What holds of an entry, given the uses, the pins on it and the calls of `resolve`. -/
structure PyramidEntry.Ok (d : PyramidDecoder π) (uses : List ByteString) (held : ℕ)
    (calls : List (ByteString × List UInt8)) (e : PyramidEntry π) : Prop where
  /-- Its size is that of what is resident. -/
  bytes : e.bytes = (e.resident.map d.residentBytes).getD 0
  /-- Its source can be decoded. -/
  decodable : (d.decode e.encoded).isSome = true
  /-- What is resident was decoded from the source. -/
  decoded : ∀ p, e.resident = some p → d.decode e.encoded = some p
  /-- Its recency is the stamp of its last use. -/
  stamp : List.Stamp uses e.uri e.recency
  /-- The pins are counted. -/
  pins : e.pins = held
  /-- A pinned entry is resident. -/
  pinned : 0 < held → e.resident.isSome = true
  /-- The source came with a call. -/
  called : (e.uri, e.encoded) ∈ calls

namespace PyramidCache

variable {c c' c'' : PyramidCache π} {held held' : ℕ → ℕ}
  {calls calls' : List (ByteString × List UInt8)} {i j : ℕ} {e e' : PyramidEntry π}
  {uri : ByteString} {p : π}

/-- What holds of a cache, given the number of pins on each entry. -/
structure Inv (d : PyramidDecoder π) (held : ℕ → ℕ) (calls : List (ByteString × List UInt8))
    (c : PyramidCache π) : Prop where
  /-- A URI has one entry. -/
  once : ∀ (i j : ℕ) (e e' : PyramidEntry π), c.entries[i]? = some e → c.entries[j]? = some e' →
    e.uri = e'.uri → i = j
  /-- The entries. -/
  entries : ∀ (i : ℕ) (e : PyramidEntry π), c.entries[i]? = some e → e.Ok d c.uses (held i) calls
  /-- The bytes are counted. -/
  resident : c.resident = c.entries.tally PyramidEntry.bytes
  /-- A tick for each use. -/
  tick : c.tick = c.uses.length
  /-- Every victim was the least recently used candidate. -/
  lru : ∀ v ∈ c.evictions, v.IsLru

/-- No entry goes away or changes its source. -/
def Keeps (c c' : PyramidCache π) : Prop :=
  ∀ (i : ℕ) (e : PyramidEntry π), c.entries[i]? = some e →
    ∃ e' : PyramidEntry π, c'.entries[i]? = some e' ∧ e'.uri = e.uri ∧ e'.encoded = e.encoded

/-- The cache is within its budget, or nothing can be evicted. -/
def Fits (c : PyramidCache π) : Prop :=
  c.resident ≤ c.budget ∨ ∀ e ∈ c.entries, e.evictable = false

theorem Keeps.refl (c : PyramidCache π) : c.Keeps c := fun _ e he => ⟨e, he, rfl, rfl⟩

theorem Keeps.trans (h : c.Keeps c') (h' : c'.Keeps c'') : c.Keeps c'' := by
  intro i e he
  obtain ⟨e', he', huri, hencoded⟩ := h i e he
  obtain ⟨e'', he'', huri', hencoded'⟩ := h' i e' he'
  exact ⟨e'', he'', huri'.trans huri, hencoded'.trans hencoded⟩

/-- One entry changes. -/
theorem getElem?_of_set (hi : c.entries[i]? = some e) (hset : c'.entries = c.entries.set i e')
    {e'' : PyramidEntry π} (hj : c'.entries[j]? = some e'') :
    j = i ∧ e'' = e' ∨ j ≠ i ∧ c.entries[j]? = some e'' := by
  obtain ⟨hlt, -⟩ := List.getElem?_eq_some_iff.mp hi
  rw [hset] at hj
  by_cases hji : j = i
  · subst hji
    rw [List.getElem?_set_self hlt] at hj
    exact .inl ⟨rfl, (Option.some.inj hj).symm⟩
  · rw [List.getElem?_set_ne (Ne.symm hji)] at hj
    exact .inr ⟨hji, hj⟩

theorem keeps_of_set (hi : c.entries[i]? = some e) (hset : c'.entries = c.entries.set i e')
    (huri : e'.uri = e.uri) (hencoded : e'.encoded = e.encoded) : c.Keeps c' := by
  intro j e'' hj
  obtain ⟨hlt, -⟩ := List.getElem?_eq_some_iff.mp hi
  rw [hset]
  by_cases hji : j = i
  · subst hji
    rw [hi] at hj
    obtain rfl := Option.some.inj hj
    exact ⟨e', List.getElem?_set_self hlt, huri, hencoded⟩
  · exact ⟨e'', by rw [List.getElem?_set_ne (Ne.symm hji)]; exact hj, rfl, rfl⟩

/-- A change of one entry keeps the books when they are changed with it. -/
theorem Inv.set (h : c.Inv d held calls) (hi : c.entries[i]? = some e)
    (hset : c'.entries = c.entries.set i e') (huri : e'.uri = e.uri)
    (hself : e'.Ok d c'.uses (held' i) calls)
    (hothers : ∀ (j : ℕ) (e : PyramidEntry π), j ≠ i → c.entries[j]? = some e →
      e.Ok d c'.uses (held' j) calls)
    (hresident : e.bytes + c'.resident = e'.bytes + c.resident) (htick : c'.tick = c'.uses.length)
    (hlru : ∀ v ∈ c'.evictions, v.IsLru) : c'.Inv d held' calls where
  once j k a b hj hk hab := by
    rcases getElem?_of_set hi hset hj with ⟨rfl, rfl⟩ | ⟨-, hj⟩ <;>
      rcases getElem?_of_set hi hset hk with ⟨rfl, rfl⟩ | ⟨-, hk⟩
    · rfl
    · exact h.once _ _ e b hi hk (huri.symm.trans hab)
    · exact h.once _ _ a e hj hi (hab.trans huri)
    · exact h.once _ _ a b hj hk hab
  entries j a hj := by
    rcases getElem?_of_set hi hset hj with ⟨rfl, rfl⟩ | ⟨hji, hj⟩
    · exact hself
    · exact hothers j a hji hj
  resident := by
    have htally := List.tally_set hi e' PyramidEntry.bytes
    have hold := h.resident
    rw [hset]
    omega
  tick := htick
  lru := hlru

/-! ## Trimming -/

theorem mem_candidates : (e, i) ∈ c.candidates ↔
    c.entries[i]? = some e ∧ e.evictable = true := by
  rw [candidates, List.mem_filter, List.mk_mem_zipIdx_iff_getElem?]

/-- An entry that can be evicted is resident and not pinned. -/
theorem evictable_iff : e.evictable = true ↔ e.resident.isSome = true ∧ e.pins = 0 := by
  rw [PyramidEntry.evictable, Bool.and_eq_true, beq_iff_eq]

/-- The entry that is evicted is the least recently used candidate. -/
theorem Inv.isLru (h : c.Inv d held calls) (hvictim : c.pickVictim = some (e, i)) :
    PyramidEviction.IsLru ⟨e.uri, c.candidates.map fun p => p.1.uri, c.uses⟩ := by
  have hmem : (e, i) ∈ c.candidates := List.argmin_mem hvictim
  refine ⟨List.mem_map_of_mem (f := fun p : PyramidEntry π × ℕ => p.1.uri) hmem, ?_⟩
  intro uri huri hne
  obtain ⟨⟨e', j⟩, hmem', rfl⟩ := List.mem_map.mp huri
  have hle : e.recency ≤ e'.recency :=
    List.le_of_mem_argmin (f := fun p : PyramidEntry π × ℕ => p.1.recency) hmem' hvictim
  have hstamp := (h.entries i e (mem_candidates.mp hmem).1).stamp
  have hstamp' := (h.entries j e' (mem_candidates.mp hmem').1).stamp
  exact hstamp.lt_of_le hstamp' (Ne.symm hne) hle

/-- An eviction keeps the books. -/
theorem Inv.evict (h : c.Inv d held calls) (hvictim : c.pickVictim = some (e, i)) :
    (c.evict (e, i)).Inv d held calls ∧ c.Keeps (c.evict (e, i)) := by
  obtain ⟨hi, hevictable⟩ := mem_candidates.mp (List.argmin_mem hvictim)
  obtain ⟨-, hpins⟩ := evictable_iff.mp hevictable
  have hok := h.entries i e hi
  refine ⟨h.set hi rfl rfl ?_ (fun j a _ hj => h.entries j a hj) ?_ h.tick ?_,
    keeps_of_set hi rfl rfl rfl⟩
  · refine ⟨rfl, hok.decodable, fun _ hp => (nomatch hp), hok.stamp, hok.pins, fun hheld => ?_,
      hok.called⟩
    rw [← hok.pins, hpins] at hheld
    exact absurd hheld (Nat.lt_irrefl 0)
  · -- the victim's bytes are among those that are counted
    have htally := List.tally_set hi { e with bytes := 0 } PyramidEntry.bytes
    have hold := h.resident
    show e.bytes + (c.resident - e.bytes) = 0 + c.resident
    dsimp only at htally
    omega
  · intro v hv
    rcases List.mem_cons.mp hv with rfl | hv
    · exact h.isLru hvictim
    · exact h.lru v hv

/-- After an eviction there is a candidate less. -/
theorem countP_evict (hvictim : c.pickVictim = some (e, i)) :
    (c.evict (e, i)).entries.countP PyramidEntry.evictable + 1 =
      c.entries.countP PyramidEntry.evictable := by
  obtain ⟨hi, hevictable⟩ := mem_candidates.mp (List.argmin_mem hvictim)
  obtain ⟨hlt, hget⟩ := List.getElem?_eq_some_iff.mp hi
  have hpos : 0 < c.entries.countP PyramidEntry.evictable :=
    List.countP_pos_iff.mpr ⟨e, List.mem_of_getElem? hi, hevictable⟩
  have hgone : ¬ ({ e with bytes := 0, resident := none } : PyramidEntry π).evictable = true := by
    rw [evictable_iff]
    exact fun h => by cases h.1
  show (c.entries.set i _).countP _ + 1 = _
  rw [List.countP_set hlt, hget, if_pos hevictable, if_neg hgone]
  omega

/-- The loop trims the cache. -/
theorem Inv.evictLoop {n : ℕ} (h : c.Inv d held calls)
    (hn : c.entries.countP PyramidEntry.evictable ≤ n) :
    (c.evictLoop n).Inv d held calls ∧ c.Keeps (c.evictLoop n) ∧ (c.evictLoop n).Fits := by
  induction n generalizing c with
  | zero =>
    refine ⟨h, Keeps.refl c, .inr fun e he => Bool.eq_false_iff.mpr fun hevictable => ?_⟩
    have hpos : 0 < c.entries.countP PyramidEntry.evictable :=
      List.countP_pos_iff.mpr ⟨e, he, hevictable⟩
    omega
  | succ n ih =>
    rw [PyramidCache.evictLoop]
    split
    case isFalse hfits => exact ⟨h, Keeps.refl c, .inl (Nat.le_of_not_lt hfits)⟩
    case isTrue =>
      split
      case h_1 victim hvictim =>
        obtain ⟨hinv, hkeeps⟩ := h.evict hvictim
        have hcount := countP_evict hvictim
        obtain ⟨hinv', hkeeps', hfits⟩ := ih hinv (by omega)
        exact ⟨hinv', hkeeps.trans hkeeps', hfits⟩
      case h_2 hnone =>
        refine ⟨h, Keeps.refl c, .inr fun e he => Bool.eq_false_iff.mpr fun hevictable => ?_⟩
        obtain ⟨i, hi⟩ := List.mem_iff_getElem?.mp he
        have hmem := mem_candidates.mpr ⟨hi, hevictable⟩
        rw [List.argmin_eq_none.mp hnone] at hmem
        cases hmem

/-- Trimming keeps the books. -/
theorem Inv.evictToFit (h : c.Inv d held calls) :
    c.evictToFit.Inv d held calls ∧ c.Keeps c.evictToFit ∧ c.evictToFit.Fits :=
  h.evictLoop List.countP_le_length

/-! ## The operations -/

/-- An entry can always be read: what is not resident is decoded again. -/
theorem Inv.access (h : c.Inv d held calls) (hi : c.entries[i]? = some e) :
    ∃ p, d.decode e.encoded = some p ∧ (c.access d i).1 = some p ∧
      (c.access d i).2.Inv d held calls ∧ c.Keeps (c.access d i).2 ∧
      ∃ e', (c.access d i).2.entries[i]? = some e' ∧ e'.resident = some p := by
  have hok := h.entries i e hi
  rw [PyramidCache.access, hi]
  dsimp only
  cases hresident : e.resident with
  | some p => exact ⟨p, hok.decoded p hresident, rfl, h, Keeps.refl c, e, hi, hresident⟩
  | none =>
    obtain ⟨p, hp⟩ := Option.isSome_iff_exists.mp hok.decodable
    obtain ⟨hlt, -⟩ := List.getElem?_eq_some_iff.mp hi
    simp only [refill, hp]
    refine ⟨p, rfl, rfl, h.set hi rfl rfl ?_ (fun j a _ hj => h.entries j a hj) ?_ h.tick h.lru,
      keeps_of_set hi rfl rfl rfl, _, List.getElem?_set_self hlt, rfl⟩
    · refine ⟨rfl, hok.decodable, fun q hq => ?_, hok.stamp, hok.pins, fun _ => rfl, hok.called⟩
      obtain rfl := Option.some.inj hq
      exact hp
    · -- what was evicted counted nothing
      have hbytes := hok.bytes
      rw [hresident] at hbytes
      have hzero : e.bytes = 0 := hbytes
      dsimp only
      omega

/-- A use keeps the books. -/
theorem Inv.touch (h : c.Inv d held calls) (hi : c.entries[i]? = some e) :
    (c.touch i).Inv d held calls ∧ c.Keeps (c.touch i) := by
  have hok := h.entries i e hi
  rw [PyramidCache.touch, hi]
  refine ⟨h.set hi rfl rfl ?_ (fun j a hji hj => ?_) rfl ?_ h.lru, keeps_of_set hi rfl rfl rfl⟩
  · refine ⟨hok.bytes, hok.decodable, hok.decoded, ?_, hok.pins, hok.pinned, hok.called⟩
    show List.Stamp (e.uri :: c.uses) e.uri (c.tick + 1)
    rw [h.tick]
    exact List.Stamp.self c.uses e.uri
  · have ha := h.entries j a hj
    have hne : a.uri ≠ e.uri := fun heq => hji (h.once j i a e hj hi heq)
    exact ⟨ha.bytes, ha.decodable, ha.decoded, ha.stamp.cons hne, ha.pins, ha.pinned, ha.called⟩
  · exact congrArg (· + 1) h.tick

/-- A change of the pins of a resident entry keeps the books. -/
theorem Inv.modifyPins {n : ℕ} (h : c.Inv d held calls) (hi : c.entries[i]? = some e)
    (hc' : c' = { c with entries := c.entries.set i { e with pins := n } })
    (hresident : 0 < n → e.resident.isSome = true) :
    c'.Inv d (Function.update held i n) calls ∧ c.Keeps c' := by
  have hok := h.entries i e hi
  subst hc'
  refine ⟨h.set hi rfl rfl ?_ (fun j a hji hj => ?_) rfl h.tick h.lru, keeps_of_set hi rfl rfl rfl⟩
  · rw [Function.update_self]
    exact ⟨hok.bytes, hok.decodable, hok.decoded, hok.stamp, rfl, hresident, hok.called⟩
  · rw [Function.update_of_ne hji]
    exact h.entries j a hj

theorem find?_eq_some (h : c.find? uri = some i) : ∃ e, c.entries[i]? = some e ∧ e.uri = uri := by
  obtain ⟨hlt, huri, -⟩ := List.findIdx?_eq_some_iff_getElem.mp h
  exact ⟨c.entries[i], List.getElem?_eq_getElem hlt, of_decide_eq_true huri⟩

theorem find?_eq_none (h : c.find? uri = none) : ∀ e ∈ c.entries, e.uri ≠ uri :=
  fun e he => of_decide_eq_false (List.findIdx?_eq_none_iff.mp h e he)

/-- More calls. -/
theorem Inv.mono (h : c.Inv d held calls) (hcalls : calls ⊆ calls') : c.Inv d held calls' where
  once := h.once
  entries i e hi :=
    have hok := h.entries i e hi
    ⟨hok.bytes, hok.decodable, hok.decoded, hok.stamp, hok.pins, hok.pinned, hcalls hok.called⟩
  resident := h.resident
  tick := h.tick
  lru := h.lru

/-- An entry has answered with its pyramid. -/
def Answered (d : PyramidDecoder π) (c : PyramidCache π) (uri : ByteString) (p : π) : Prop :=
  ∃ (i : ℕ) (e : PyramidEntry π), c.entries[i]? = some e ∧ e.uri = uri ∧
    d.decode e.encoded = some p

theorem Answered.keeps (h : c.Answered d uri p) (hkeeps : c.Keeps c') : c'.Answered d uri p := by
  obtain ⟨i, e, hi, huri, hp⟩ := h
  obtain ⟨e', hi', huri', hencoded⟩ := hkeeps i e hi
  exact ⟨i, e', hi', huri'.trans huri, by rw [hencoded]; exact hp⟩

/-- A new entry keeps the books. -/
theorem Inv.admitEntry (h : c.Inv d held calls) (hnew : ∀ e ∈ c.entries, e.uri ≠ uri)
    {encoded : List UInt8} (hp : d.decode encoded = some p) (hcall : (uri, encoded) ∈ calls)
    (hheld : held c.entries.length = 0) :
    (c.admitEntry d uri encoded p).Inv d held calls ∧ c.Keeps (c.admitEntry d uri encoded p) ∧
      (c.admitEntry d uri encoded p).Answered d uri p := by
  let entry : PyramidEntry π := ⟨uri, encoded, some p, d.residentBytes p, c.tick + 1, 0⟩
  have hold : ∀ (j : ℕ) (a : PyramidEntry π), (c.entries ++ [entry])[j]? = some a →
      c.entries[j]? = some a ∨ j = c.entries.length ∧ a = entry := by
    intro j a hj
    rw [List.getElem?_append] at hj
    split at hj
    case isTrue => exact .inl hj
    case isFalse hlt =>
      obtain ⟨hlen, hget⟩ := List.getElem?_eq_some_iff.mp hj
      rw [List.length_singleton] at hlen
      exact .inr ⟨by omega, hget.symm.trans (List.getElem_singleton _)⟩
  refine ⟨⟨fun j k a b hj hk hab => ?_, fun j a hj => ?_, ?_, ?_, h.lru⟩, fun j a hj => ?_, ?_⟩
  · rcases hold j a hj with hj | ⟨rfl, rfl⟩ <;> rcases hold k b hk with hk | ⟨rfl, rfl⟩
    · exact h.once j k a b hj hk hab
    · exact absurd hab (hnew a (List.mem_of_getElem? hj))
    · exact absurd hab.symm (hnew b (List.mem_of_getElem? hk))
    · rfl
  · show a.Ok d (uri :: c.uses) (held j) calls
    rcases hold j a hj with hj | ⟨rfl, rfl⟩
    · have ha := h.entries j a hj
      exact ⟨ha.bytes, ha.decodable, ha.decoded, ha.stamp.cons (hnew a (List.mem_of_getElem? hj)),
        ha.pins, ha.pinned, ha.called⟩
    · refine ⟨rfl, Option.isSome_iff_exists.mpr ⟨p, hp⟩, fun q hq => ?_, ?_, hheld.symm,
        fun _ => rfl, hcall⟩
      · obtain rfl := Option.some.inj hq
        exact hp
      · show List.Stamp (uri :: c.uses) uri (c.tick + 1)
        rw [h.tick]
        exact List.Stamp.self c.uses uri
  · show c.resident + d.residentBytes p = (c.entries ++ [entry]).tally PyramidEntry.bytes
    rw [List.tally_append, List.tally_cons, List.tally_nil, h.resident, Nat.add_zero]
  · exact congrArg (· + 1) h.tick
  · obtain ⟨hlt, -⟩ := List.getElem?_eq_some_iff.mp hj
    exact ⟨a, (List.getElem?_append_left hlt).trans hj, rfl, rfl⟩
  · exact ⟨c.entries.length, entry, List.getElem?_concat_length, rfl, hp⟩

/-- A call of `resolve` keeps the books, and answers with the pyramid of an entry. -/
theorem Inv.resolve (h : c.Inv d held calls) (hfits : c.Fits)
    (hheld : ∀ i, c.entries.length ≤ i → held i = 0) (uri : ByteString) (encoded : List UInt8) :
    (c.resolve d uri encoded).2.Inv d held ((uri, encoded) :: calls) ∧
      c.Keeps (c.resolve d uri encoded).2 ∧ (c.resolve d uri encoded).2.Fits ∧
      ∀ p, (c.resolve d uri encoded).1 = some p → (c.resolve d uri encoded).2.Answered d uri p := by
  have hmono : c.Inv d held ((uri, encoded) :: calls) := h.mono (List.subset_cons_self _ _)
  have hsame : c.Inv d held ((uri, encoded) :: calls) ∧ c.Keeps c ∧ c.Fits ∧
      ∀ p, (none : Option π) = some p → c.Answered d uri p :=
    ⟨hmono, Keeps.refl c, hfits, fun _ hp => nomatch hp⟩
  rw [PyramidCache.resolve]
  split
  case isTrue => exact hsame
  case isFalse =>
    split
    case isTrue => exact hsame
    case isFalse =>
      split
      case h_1 i hfind =>
        obtain ⟨e, hi, huri⟩ := find?_eq_some hfind
        obtain ⟨htouch, hkeeps⟩ := hmono.touch hi
        obtain ⟨e', hi', huri', hencoded⟩ := hkeeps i e hi
        obtain ⟨p, hp, hanswer, hinv, hkeeps', -⟩ := htouch.access hi'
        obtain ⟨hinv', hkeeps'', hfits'⟩ := hinv.evictToFit
        refine ⟨hinv', (hkeeps.trans hkeeps').trans hkeeps'', hfits', fun q hq => ?_⟩
        have hpq : p = q := Option.some.inj (hanswer.symm.trans hq)
        subst hpq
        have hanswered : (c.touch i).Answered d uri p := ⟨i, e', hi', huri'.trans huri, hp⟩
        exact (hanswered.keeps hkeeps').keeps hkeeps''
      case h_2 hfind =>
        split
        case h_1 => exact hsame
        case h_2 p hp =>
          obtain ⟨hinv, hkeeps, hanswered⟩ := hmono.admitEntry (find?_eq_none hfind) hp
            List.mem_cons_self (hheld _ (Nat.le_refl _))
          obtain ⟨hinv', hkeeps', hfits'⟩ := hinv.evictToFit
          refine ⟨hinv', hkeeps.trans hkeeps', hfits', fun q hq => ?_⟩
          obtain rfl := Option.some.inj hq
          exact hanswered.keeps hkeeps'

/-- A call of `pin` keeps the books with the pin it returns. -/
theorem Inv.pin (h : c.Inv d held calls) (uri : ByteString) :
    (∃ i p, (c.pin d uri).1 = ⟨some i, some p⟩ ∧
        (c.pin d uri).2.Inv d (Function.update held i (held i + 1)) calls ∧
        (∃ e, c.entries[i]? = some e ∧ e.uri = uri ∧ d.decode e.encoded = some p) ∧
        c.Keeps (c.pin d uri).2 ∧ (c.pin d uri).2.Fits) ∨
      c.pin d uri = ({}, c) := by
  rw [PyramidCache.pin]
  split
  case isTrue => exact .inr rfl
  case isFalse =>
    split
    case h_1 => exact .inr rfl
    case h_2 i hfind =>
      obtain ⟨e, hi, huri⟩ := find?_eq_some hfind
      obtain ⟨p, hp, hanswer, hinv, hkeeps, e', hi', hresident⟩ := h.access hi
      cases haccess : c.access d i with
      | mk q c' =>
        rw [haccess] at hanswer hinv hkeeps hi'
        obtain rfl : q = some p := hanswer
        have hpins : e'.pins = held i := (hinv.entries i e' hi').pins
        have hmodify : c'.modify i (fun e => { e with pins := e.pins + 1 }) =
            { c' with entries := c'.entries.set i { e' with pins := held i + 1 } } := by
          rw [modify, hi', ← hpins]
        obtain ⟨hpinned, hkeeps'⟩ := hinv.modifyPins hi' hmodify fun _ => by rw [hresident]; rfl
        obtain ⟨e'', hi'', -, -⟩ := hkeeps' i e' hi'
        obtain ⟨htouch, hkeeps''⟩ := hpinned.touch hi''
        obtain ⟨htrim, hkeepsTrim, hfits⟩ := htouch.evictToFit
        exact .inl ⟨i, p, rfl, htrim, ⟨e, hi, huri, hp⟩,
          ((hkeeps.trans hkeeps').trans hkeeps'').trans hkeepsTrim, hfits⟩

/-- The end of a pin keeps the books. -/
theorem Inv.unpin (h : c.Inv d held calls) (hfits : c.Fits) (hi : c.entries[i]? = some e)
    (hheld : 0 < held i) :
    (c.unpin i).Inv d (Function.update held i (held i - 1)) calls ∧ c.Keeps (c.unpin i) ∧
      (c.unpin i).Fits := by
  have hok := h.entries i e hi
  have hpins : e.pins = held i := hok.pins
  obtain ⟨hlt, -⟩ := List.getElem?_eq_some_iff.mp hi
  have hmodify : c.modify i (fun e => if e.pins > 0 then { e with pins := e.pins - 1 } else e) =
      { c with entries := c.entries.set i { e with pins := held i - 1 } } := by
    rw [modify, hi]
    dsimp only
    rw [if_pos (show e.pins > 0 by omega), hpins]
  obtain ⟨hinv, hkeeps⟩ := h.modifyPins hi rfl fun _ => hok.pinned hheld
  rw [PyramidCache.unpin, hmodify]
  simp only [List.getElem?_set_self hlt]
  split
  case isTrue =>
    obtain ⟨hinv', hkeeps', hfits'⟩ := hinv.evictToFit
    exact ⟨hinv', hkeeps.trans hkeeps', hfits'⟩
  case isFalse hpinned =>
    -- the entry stays pinned, so nothing more can be evicted
    refine ⟨hinv, hkeeps, hfits.imp_right fun hall a ha => ?_⟩
    obtain ⟨j, hj⟩ := List.mem_iff_getElem?.mp ha
    rcases getElem?_of_set hi rfl hj with ⟨-, rfl⟩ | ⟨-, hj⟩
    · exact Bool.eq_false_iff.mpr fun hevictable => hpinned (evictable_iff.mp hevictable).2
    · exact hall a (List.mem_of_getElem? hj)

/-- A budget keeps the books. -/
theorem Inv.setByteBudget (h : c.Inv d held calls) (budget : ℕ) :
    (c.setByteBudget budget).Inv d held calls ∧ c.Keeps (c.setByteBudget budget) ∧
      (c.setByteBudget budget).Fits := by
  have hbudget : ({ c with budget } : PyramidCache π).Inv d held calls :=
    ⟨h.once, h.entries, h.resident, h.tick, h.lru⟩
  obtain ⟨hinv, hkeeps, hfits⟩ := hbudget.evictToFit
  exact ⟨hinv, hkeeps, hfits⟩

end PyramidCache

/-! ## Pins -/

namespace PyramidPins

variable {s s' : PyramidPins π} {i j : ℕ} {pin : PyramidPin π}

/-- The entry of a pin can be decoded to the pyramid of the pin. -/
def PinOk (d : PyramidDecoder π) (c : PyramidCache π) (pin : PyramidPin π) : Prop :=
  ∀ i, pin.entry = some i → ∃ e p, c.entries[i]? = some e ∧ pin.pyramid = some p ∧
    d.decode e.encoded = some p

/-- The invariant of a cache and its pins. -/
structure Inv (d : PyramidDecoder π) (s : PyramidPins π) : Prop where
  /-- The books are right. -/
  cache : s.cache.Inv d s.held s.calls
  /-- The cache is trimmed. -/
  fits : s.cache.Fits
  /-- The pins. -/
  pins : ∀ pin ∈ s.pins, PinOk d s.cache pin
  /-- The answers. -/
  answers : ∀ uri p, (uri, p) ∈ s.answers → s.cache.Answered d uri p

theorem PinOk.keeps {c c' : PyramidCache π} (h : PinOk d c pin) (hkeeps : c.Keeps c') :
    PinOk d c' pin := by
  intro i hi
  obtain ⟨e, p, he, hpyramid, hp⟩ := h i hi
  obtain ⟨e', he', -, hencoded⟩ := hkeeps i e he
  exact ⟨e', p, he', hpyramid, by rw [hencoded]; exact hp⟩

/-- A pin that pins nothing is in order. -/
theorem pinOk_of_none {c : PyramidCache π} (h : pin.entry = none) : PinOk d c pin := by
  intro i hi
  rw [h] at hi
  cases hi

/-- A pin more. -/
theorem held_append (pins : List (PyramidPin π)) (pin : PyramidPin π) (i : ℕ) :
    (pins ++ [pin]).countP (fun p => decide (p.entry = some i)) =
      pins.countP (fun p => decide (p.entry = some i)) + if pin.entry = some i then 1 else 0 := by
  rw [List.countP_append, List.countP_singleton]
  simp only [decide_eq_true_eq]

/-- An entry that a pin is on exists. -/
theorem Inv.held_eq_zero (h : s.Inv d) (hi : s.cache.entries.length ≤ i) : s.held i = 0 := by
  apply List.countP_eq_zero.mpr
  intro pin hpin hentry
  obtain ⟨e, p, he, -, -⟩ := h.pins pin hpin i (of_decide_eq_true hentry)
  rw [List.getElem?_eq_none hi] at he
  cases he

/-- The cache goes on and the pins stay. -/
theorem Inv.update (h : s.Inv d) (hcache : s'.cache.Inv d s'.held s'.calls)
    (hfits : s'.cache.Fits) (hkeeps : s.cache.Keeps s'.cache)
    (hpins : ∀ pin ∈ s'.pins, pin ∈ s.pins ∨ PinOk d s'.cache pin)
    (hanswers : ∀ uri p, (uri, p) ∈ s'.answers →
      (uri, p) ∈ s.answers ∨ s'.cache.Answered d uri p) : s'.Inv d where
  cache := hcache
  fits := hfits
  pins pin hpin := by
    rcases hpins pin hpin with hold | hok
    · exact (h.pins pin hold).keeps hkeeps
    · exact hok
  answers uri p hp := by
    rcases hanswers uri p hp with hold | hnew
    · exact (h.answers uri p hold).keeps hkeeps
    · exact hnew

theorem mem_answer {uri uri' : ByteString} {q : Option π} {p : π}
    (h : (uri', p) ∈ (answer uri q s).answers) :
    (uri', p) ∈ s.answers ∨ uri' = uri ∧ q = some p := by
  cases q with
  | none => exact .inl h
  | some q =>
    rcases List.mem_cons.mp h with heq | hold
    · obtain ⟨rfl, rfl⟩ := Prod.mk.inj heq
      exact .inr ⟨rfl, rfl⟩
    · exact .inl hold

/-- A new pin on no entry. -/
theorem Inv.append (h : s.Inv d) (hentry : pin.entry = none) :
    ({ s with pins := s.pins ++ [pin] } : PyramidPins π).Inv d := by
  have hheld : ({ s with pins := s.pins ++ [pin] } : PyramidPins π).held = s.held := by
    funext j
    refine (held_append s.pins pin j).trans ?_
    rw [hentry, if_neg nofun]
    rfl
  refine h.update (hheld ▸ h.cache) h.fits (PyramidCache.Keeps.refl _) (fun p hp => ?_)
    fun _ _ hp => .inl hp
  rcases List.mem_append.mp hp with hold | hnew
  · exact .inl hold
  · obtain rfl := List.mem_singleton.mp hnew
    exact .inr (pinOk_of_none hentry)

/-- A call of `pin`. -/
theorem Inv.pinNew {uri : ByteString} (h : s.Inv d) (hs : step d (.pin uri) s = some s') :
    s'.Inv d := by
  have hs' : some (answer uri (s.cache.pin d uri).1.pyramid
      { s with
        cache := (s.cache.pin d uri).2
        pins := s.pins ++ [(s.cache.pin d uri).1] }) = some s' := hs
  obtain rfl := Option.some.inj hs'
  rcases h.cache.pin uri with ⟨i, p, hpin, hinv, ⟨e, hi, huri, hp⟩, hkeeps, hfits⟩ | hnone
  · have hheld : (fun j => (s.pins ++ [(s.cache.pin d uri).1]).countP
        fun q => decide (q.entry = some j)) = Function.update s.held i (s.held i + 1) := by
      funext j
      rw [held_append, hpin]
      by_cases hj : j = i
      · subst hj
        rw [Function.update_self, if_pos rfl]
        rfl
      · rw [Function.update_of_ne hj, if_neg fun heq => hj (Option.some.inj heq).symm]
        rfl
    obtain ⟨e', he', huri', hencoded⟩ := hkeeps i e hi
    refine h.update ?_ hfits hkeeps (fun q hq => ?_) fun uri' q hq => ?_
    · show (s.cache.pin d uri).2.Inv d _ s.calls
      rw [← hheld] at hinv
      exact hinv
    · rcases List.mem_append.mp hq with hold | hnew
      · exact .inl hold
      · have hq' : q = ⟨some i, some p⟩ := (List.mem_singleton.mp hnew).trans hpin
        subst hq'
        refine .inr fun j hj => ?_
        obtain rfl := Option.some.inj hj
        exact ⟨e', p, he', rfl, by rw [hencoded]; exact hp⟩
    · rcases mem_answer hq with hold | ⟨rfl, hq⟩
      · exact .inl hold
      · have hpq : some p = some q := (congrArg PyramidPin.pyramid hpin).symm.trans hq
        obtain rfl := Option.some.inj hpq
        exact .inr ⟨i, e', he', huri'.trans huri, by rw [hencoded]; exact hp⟩
  · rw [hnone]
    exact h.append rfl

/-- The end of a pin. -/
theorem Inv.release (h : s.Inv d) (hs : step d (.release i) s = some s') : s'.Inv d := by
  simp only [step, Option.map_eq_some_iff] at hs
  obtain ⟨pin, hpin, rfl⟩ := hs
  obtain ⟨hlt, hget⟩ := List.getElem?_eq_some_iff.mp hpin
  have hmem : pin ∈ s.pins := List.mem_of_getElem? hpin
  have hcount : ∀ j, (s.pins.set i {}).countP (fun q => decide (q.entry = some j)) =
      s.held j - if pin.entry = some j then 1 else 0 := by
    intro j
    rw [List.countP_set hlt, hget]
    simp only [decide_eq_true_eq]
    rfl
  have hpins : ∀ q ∈ s.pins.set i {}, q ∈ s.pins ∨ ∀ c, PinOk d c q := by
    intro q hq
    rcases List.mem_or_eq_of_mem_set hq with hold | rfl
    · exact .inl hold
    · exact .inr fun c => pinOk_of_none rfl
  cases hentry : pin.entry with
  | none =>
    refine h.update ?_ h.fits (PyramidCache.Keeps.refl _)
      (fun q hq => (hpins q hq).imp_right fun hok => hok _) fun _ _ hp => .inl hp
    have hheld : (fun j => (s.pins.set i {}).countP fun q => decide (q.entry = some j)) =
        s.held := by
      funext j
      rw [hcount, hentry, if_neg nofun, Nat.sub_zero]
    show s.cache.Inv d (fun j => (s.pins.set i {}).countP fun q => decide (q.entry = some j))
      s.calls
    rw [hheld]
    exact h.cache
  | some k =>
    obtain ⟨e, p, he, -, -⟩ := h.pins pin hmem k hentry
    have hpos : 0 < s.held k := List.countP_pos_iff.mpr ⟨pin, hmem, decide_eq_true hentry⟩
    obtain ⟨hinv, hkeeps, hfits⟩ := h.cache.unpin h.fits he hpos
    refine h.update ?_ hfits hkeeps (fun q hq => (hpins q hq).imp_right fun hok => hok _)
      fun _ _ hp => .inl hp
    have hheld : (fun j => (s.pins.set i {}).countP fun q => decide (q.entry = some j)) =
        Function.update s.held k (s.held k - 1) := by
      funext j
      rw [hcount, hentry]
      by_cases hj : j = k
      · subst hj
        rw [Function.update_self, if_pos rfl]
      · rw [Function.update_of_ne hj, if_neg fun heq => hj (Option.some.inj heq).symm, Nat.sub_zero]
    show (s.cache.unpin k).Inv d
      (fun j => (s.pins.set i {}).countP fun q => decide (q.entry = some j)) s.calls
    rw [hheld]
    exact hinv

/-- A pin takes over from another. -/
theorem Inv.take {target source : ℕ} (h : s.Inv d)
    (hs : step d (.take target source) s = some s') : s'.Inv d := by
  simp only [PyramidPins.step] at hs
  split at hs
  case h_2 => cases hs
  case h_1 htarget hsource =>
    rename_i pin
    obtain rfl := Option.some.inj hs
    obtain ⟨hltTarget, hgetTarget⟩ := List.getElem?_eq_some_iff.mp htarget
    obtain ⟨hltSource, hgetSource⟩ := List.getElem?_eq_some_iff.mp hsource
    have hheld : (fun j => ((s.pins.set source {}).set target pin).countP
        fun q => decide (q.entry = some j)) = s.held := by
      funext j
      have hlt : target < (s.pins.set source {}).length := by rwa [List.length_set]
      -- the target is empty, also when it is the source
      have hempty : (s.pins.set source {})[target] = {} := by
        rw [List.getElem_set]
        split
        case isTrue => rfl
        case isFalse => exact hgetTarget
      have hcount : (if pin.entry = some j then 1 else 0) ≤ s.held j := by
        split
        case isTrue hentry =>
          exact List.countP_pos_iff.mpr ⟨pin, List.mem_of_getElem? hsource, decide_eq_true hentry⟩
        case isFalse => exact Nat.zero_le _
      rw [List.countP_set hlt, hempty, List.countP_set hltSource, hgetSource]
      simp only [decide_eq_true_eq, reduceCtorEq, if_false, Nat.sub_zero, Nat.add_zero]
      exact Nat.sub_add_cancel hcount
    refine h.update ?_ h.fits (PyramidCache.Keeps.refl _) (fun q hq => ?_) fun _ _ hp => .inl hp
    · show s.cache.Inv d (fun j => ((s.pins.set source {}).set target pin).countP
        fun q => decide (q.entry = some j)) s.calls
      rw [hheld]
      exact h.cache
    · rcases List.mem_or_eq_of_mem_set hq with hold | rfl
      · rcases List.mem_or_eq_of_mem_set hold with hold | rfl
        · exact .inl hold
        · exact .inr (pinOk_of_none rfl)
      · exact .inl (List.mem_of_getElem? hsource)

/-- Every event keeps the invariant. -/
theorem Inv.step {e : PyramidEvent π} (h : s.Inv d) (hs : step d e s = some s') : s'.Inv d := by
  cases e with
  | resolve uri encoded =>
    obtain rfl := Option.some.inj hs
    obtain ⟨hinv, hkeeps, hfits, hanswer⟩ :=
      h.cache.resolve h.fits (fun i hi => h.held_eq_zero hi) uri encoded
    refine h.update hinv hfits hkeeps (fun pin hpin => .inl hpin) fun uri' p hp => ?_
    rcases mem_answer hp with hold | ⟨rfl, hq⟩
    · exact .inl hold
    · exact .inr (hanswer p hq)
  | pin uri => exact h.pinNew hs
  | setByteBudget budget =>
    obtain rfl := Option.some.inj hs
    obtain ⟨hinv, hkeeps, hfits⟩ := h.cache.setByteBudget budget
    exact h.update hinv hfits hkeeps (fun pin hpin => .inl hpin) fun _ _ hp => .inl hp
  | empty =>
    obtain rfl := Option.some.inj hs
    exact h.append rfl
  | own pyramid =>
    obtain rfl := Option.some.inj hs
    exact h.append rfl
  | release i => exact h.release hs
  | take target source => exact h.take hs

/-- The invariant holds in every interleaving. -/
theorem inv_of_reachable (h : (machine d).Reachable Machine.anyEvent s) : s.Inv d := by
  refine h.invariant (fun s hs => ?_) fun _ _ _ hs _ hstep => hs.step hstep
  obtain ⟨budget, rfl⟩ := hs
  exact ⟨⟨nofun, nofun, rfl, rfl, nofun⟩, .inl (Nat.zero_le _), nofun, nofun⟩

/-- The invariant keeps the promises. -/
theorem Inv.transparent (h : s.Inv d) : s.Transparent d where
  resident := by
    rw [h.cache.resident]
    refine congrArg List.sum (List.map_congr_left fun e he => ?_)
    obtain ⟨i, hi⟩ := List.mem_iff_getElem?.mp he
    exact (h.cache.entries i e hi).bytes
  pins i e hi := (h.cache.entries i e hi).pins
  pinned pin hpin i hi := by
    obtain ⟨e, p, he, hpyramid, hp⟩ := h.pins pin hpin i hi
    have hok := h.cache.entries i e he
    have hheld : 0 < s.held i := List.countP_pos_iff.mpr ⟨pin, hpin, decide_eq_true hi⟩
    obtain ⟨q, hq⟩ := Option.isSome_iff_exists.mp (hok.pinned hheld)
    have hpq : p = q := Option.some.inj (hp.symm.trans (hok.decoded q hq))
    exact ⟨e, p, he, hpq ▸ hq, hpyramid⟩
  fits := by
    refine h.fits.imp_right fun hall e he hresident => Nat.pos_of_ne_zero fun hpins => ?_
    have hevictable := PyramidCache.evictable_iff.mpr ⟨hresident, hpins⟩
    rw [hall e he] at hevictable
    cases hevictable
  lru := h.cache.lru
  answers uri p encoded hp hsame := by
    obtain ⟨i, e, hi, rfl, hdecode⟩ := h.answers uri p hp
    have hok := h.cache.entries i e hi
    have heq : e.encoded = encoded := hsame e.encoded hok.called hok.decodable
    rw [← heq]
    exact hdecode

/-- A decoder of pyramids that are known by the number of their bytes. -/
def lengthDecoder : PyramidDecoder ℕ where
  decode encoded := if encoded = [] then none else some encoded.length
  residentBytes n := n
  decode_nil := rfl

/-- Two images that do not both fit; a pin of the one that was evicted moves and is released. -/
def pyramidRun : List (PyramidEvent ℕ) :=
  [.setByteBudget 4, .resolve [97] [1, 2], .resolve [98] [1, 2, 3], .pin [97], .empty, .take 1 0,
    .release 0, .release 1, .pin [98]]

end PyramidPins

end ArbitraryComposer
