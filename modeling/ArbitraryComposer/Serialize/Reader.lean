import ArbitraryComposer.Base.RationalTime

/-!
# Reading Time Maps

The reader checks the type of every field before it extracts it, and takes a field of another type
for absent. A rate that the constructor of a rational number refuses makes the whole time map the
identity. The in-point and the offset are taken as they are.

A number in a document is an integer when it is written as one and fits 64 bits, signed or
unsigned; extracting a signed value of 64 bits from it wraps.

## Main definitions

- `Json`: a parsed document.
- `intOr`, `parseTimeMap`: the accessors of the reader.

## Main results

- `parseTimeMap_spec`: every document yields a time map, with a reduced rate.
- `read_chain_composes_iff`: when the time maps of a document compose exactly.
-/

namespace ArbitraryComposer

/-- A parsed document. The keys of an object are distinct. -/
inductive Json where
  /-- Nothing. -/
  | null
  /-- A truth value. -/
  | bool (b : Bool)
  /-- A number written as an integer. -/
  | integer (i : ℤ)
  /-- Any other number, as its bits. -/
  | float (bits : UInt64)
  /-- A text. -/
  | string (s : String)
  /-- A list. -/
  | array (xs : List Json)
  /-- Named fields. -/
  | object (fields : List (String × Json))

namespace Json

/-- The field of an object. -/
def find (o : Json) (key : String) : Option Json :=
  match o with
  | object fields => fields.lookup key
  | _ => none

/-- `get<std::int64_t>` of a value that is an integer. -/
def getInt? : Json → Option Int64
  | integer i => some (.ofInt i)
  | _ => none

end Json

/-- `int_or`. -/
def intOr (o : Json) (key : String) (dflt : Int64) : Int64 :=
  ((o.find key).bind Json.getInt?).getD dflt

/-- The two numbers of a rate, where the field has them. -/
def parseRate (m : Json) : Int64 × Int64 :=
  match m.find "rate" with
  | some (.array [num, den]) =>
    match num.getInt?, den.getInt? with
    | some num, some den => (num, den)
    | _, _ => (1, 1)
  | _ => (1, 1)

/-- `parse_time_map`. -/
def parseTimeMap (o : Json) : Checked TimeError TimeMap :=
  match o.find "time_map" with
  | some (.object fields) => do
    let m := Json.object fields
    let (num, den) := parseRate m
    -- a rate that would trip the assertions of the constructor falls back to the identity map
    if den = 0 ∨ num = Int64.minValue ∨ den = Int64.minValue then
      return {}
    let rate ← Rational.make num den
    return { input := intOr m "in" 0, rateNum := rate.num, rateDen := rate.den,
             offset := intOr m "offset" 0 }
  | _ => return {}

/-- The reader makes a time map of every document, and its rate is in lowest terms. -/
theorem parseTimeMap_spec (o : Json) : ∃ m, parseTimeMap o = .ok m ∧ m.rate.Canonical := by
  have hone : (TimeMap.rate {}).Canonical := ⟨by decide, by decide, by decide⟩
  unfold parseTimeMap
  split
  · rename_i fields _
    by_cases hbad : (parseRate (.object fields)).2 = 0 ∨
        (parseRate (.object fields)).1 = Int64.minValue ∨
        (parseRate (.object fields)).2 = Int64.minValue
    · refine ⟨{}, ?_, hone⟩
      simp only [if_pos hbad]
      rfl
    · obtain ⟨hden, hrest⟩ := not_or.mp hbad
      obtain ⟨hnum, hden'⟩ := not_or.mp hrest
      obtain ⟨r, hr, hcan, -⟩ := Rational.make_spec hden hnum hden'
      refine ⟨⟨intOr (.object fields) "in" 0, r.num, r.den, intOr (.object fields) "offset" 0⟩,
        ?_, hcan⟩
      simp only [if_neg hbad, hr]
      rfl
  · exact ⟨{}, rfl, hone⟩

/-- A chain of edges read from documents composes exactly, edge by edge and in every grouping,
exactly when no in-point and no offset of an edge is the least 64-bit value. -/
theorem read_chain_composes_iff {edges : List TimeMap}
    (h : ∀ m ∈ edges, ∃ o, parseTimeMap o = .ok m) :
    ChainComposes edges ↔
      ∀ m ∈ edges, m.input ≠ Int64.minValue ∧ m.offset ≠ Int64.minValue := by
  refine chainComposes_iff fun m hm => ?_
  obtain ⟨o, ho⟩ := h m hm
  obtain ⟨m', hm', hcan⟩ := parseTimeMap_spec o
  rw [ho] at hm'
  cases hm'
  exact hcan

/-- A layer whose time map has an in-point and a rate. -/
def layerJson (input num den : ℤ) : Json :=
  .object [("time_map",
    .object [("in", .integer input), ("rate", .array [.integer num, .integer den])])]

private theorem parseTimeMap_reverse : parseTimeMap (layerJson 7 (-1) 2) = .ok ⟨7, -1, 2, 0⟩ := by
  decide +kernel

private theorem parseTimeMap_minValue :
    parseTimeMap (layerJson (-2 ^ 63) 1 1) = .ok ⟨Int64.minValue, 1, 1, 0⟩ := by
  decide +kernel

/-- A layer at half speed, backwards, that starts at flick 7. -/
theorem read_chain_composes_iff_reverse :
    ChainComposes [⟨7, -1, 2, 0⟩] ↔
      ∀ m ∈ [(⟨7, -1, 2, 0⟩ : TimeMap)], m.input ≠ Int64.minValue ∧ m.offset ≠ Int64.minValue :=
  read_chain_composes_iff fun m hm => ⟨layerJson 7 (-1) 2, by
    rw [List.mem_singleton.mp hm]
    exact parseTimeMap_reverse⟩

/-- A layer whose in-point is the least 64-bit integer. -/
theorem read_chain_minValue :
    ∃ layer m, parseTimeMap layer = .ok m ∧ m.rateNum ≠ 0 ∧ ¬ ChainComposes [m] := by
  refine ⟨layerJson (-2 ^ 63) 1 1, ⟨Int64.minValue, 1, 1, 0⟩, parseTimeMap_minValue, by decide,
    fun h => ?_⟩
  have hgroup := (h.grouped (.edge ⟨Int64.minValue, 1, 1, 0⟩) rfl).defined
  exact hgroup (ComposedTimeMap.from_traps (by decide))

end ArbitraryComposer
