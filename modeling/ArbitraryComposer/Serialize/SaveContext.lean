import ArbitraryComposer.Pool.Fault
import ArbitraryComposer.Serialize.TileBlob
import ArbitraryComposer.ToMathlib.Exec
import Mathlib.Data.List.Basic

/-!
# Asset Sinks and the Save Context

A sink stores named blobs and never deletes one. A save context says which sink a save writes
to, under which base, in which storage format, and whether it only runs for its parameters.

## Main definitions

- `AssetSink`: a write-if-absent blob store whose writes may be refused.
- `SaveContext`: what one save is given.
- `storeAsset`, `hasAsset`: the sink as a codec sees it through the context.

## Main results

- `storeAsset_spec`: a blob that is stored is present, and none is lost.
-/

namespace ArbitraryComposer

open Exec

/-- `AssetSinkError::Kind`. -/
inductive AssetSinkError where
  /-- No sink is installed and the document has bytes to store. -/
  | noSink
  /-- The sink could not durably write the bytes. -/
  | writeFailed
  deriving DecidableEq, Repr

/-- A write-if-absent store of blobs by resolved URI. -/
structure AssetSink where
  /-- The blobs present. -/
  blobs : List (String × List UInt8)
  /-- The number of `put` calls so far. -/
  puts : ℕ
  /-- Which `put` calls fail to write. -/
  refuses : ℕ → Bool

namespace AssetSink

/-- `AssetSink::contains`. -/
def contains (sink : AssetSink) (uri : String) : Bool := (sink.blobs.lookup uri).isSome

/-- `AssetSink::put`: true when bytes were written, false when the name was present. -/
def put (sink : AssetSink) (uri : String) (bytes : List UInt8) :
    Except AssetSinkError Bool × AssetSink :=
  let sink' := { sink with puts := sink.puts + 1 }
  if sink.contains uri then
    (.ok false, sink')
  else if sink.refuses sink.puts then
    (.error .writeFailed, sink')
  else
    (.ok true, { sink' with blobs := (uri, bytes) :: sink.blobs })

theorem contains_put {sink : AssetSink} {uri uri' : String} {bytes : List UInt8}
    (h : sink.contains uri' = true) : (sink.put uri bytes).2.contains uri' = true := by
  unfold put
  simp only
  split
  · exact h
  · split
    · exact h
    · unfold contains at h ⊢
      rw [List.lookup_cons]
      split
      · rfl
      · exact h

theorem contains_of_put_ok {sink sink' : AssetSink} {uri : String} {bytes : List UInt8} {b : Bool}
    (h : sink.put uri bytes = (.ok b, sink')) : sink'.contains uri = true := by
  unfold put at h
  simp only at h
  split at h
  · rename_i hc
    cases h
    exact hc
  · split at h
    · cases h
    · cases h
      simp [contains]

end AssetSink

/-- What a save is given. -/
structure SaveContext where
  /-- The base URI relative names resolve against. -/
  baseUri : String
  /-- The installed sink, if any. -/
  sink : Option ℕ
  /-- The storage format of tiles. -/
  storageFormat : PixelFormat
  /-- Whether the codec is run for its parameters only. -/
  paramsOnly : Bool
  deriving DecidableEq

/-- Programs on the sinks of a session. -/
abbrev SinkExec (α : Type) : Type := Exec (ℕ → AssetSink) AssetSinkError Fault α

variable (resolveUri : String → String → String)

/-- `SaveContext::store_asset`. -/
def storeAsset (ctx : SaveContext) (uri : String) (bytes : List UInt8) : SinkExec Bool :=
  if ctx.paramsOnly then
    pure false
  else
    match ctx.sink with
    | none => throw .noSink
    | some k => ofExcept fun sinks =>
      let (r, sink) := (sinks k).put (resolveUri ctx.baseUri uri) bytes
      (r, Function.update sinks k sink)

/-- `SaveContext::has_asset`. -/
def hasAsset (ctx : SaveContext) (uri : String) : SinkExec Bool :=
  if ctx.paramsOnly then
    pure true
  else
    match ctx.sink with
    | none => pure false
    | some k => gets fun sinks => (sinks k).contains (resolveUri ctx.baseUri uri)

/-- Every blob of `sinks` is still in `sinks'`. -/
def SinksGrow (sinks sinks' : ℕ → AssetSink) : Prop :=
  ∀ k uri, (sinks k).contains uri = true → (sinks' k).contains uri = true

/-- The sink of a save holds the blob a relative name resolves to. -/
def SaveContext.Holds (ctx : SaveContext) (sinks : ℕ → AssetSink) (uri : String) : Prop :=
  ∃ k, ctx.sink = some k ∧ (sinks k).contains (resolveUri ctx.baseUri uri) = true

instance (ctx : SaveContext) (sinks : ℕ → AssetSink) (uri : String) :
    Decidable (ctx.Holds resolveUri sinks uri) :=
  decidable_of_iff
    (ctx.sink.any (fun k => (sinks k).contains (resolveUri ctx.baseUri uri)) = true)
    (Option.any_eq_true _ _)

variable {resolveUri} {ctx : SaveContext} {sinks sinks' sinks'' : ℕ → AssetSink} {uri : String}

theorem SinksGrow.refl : SinksGrow sinks sinks := fun _ _ h => h

theorem SinksGrow.trans (h : SinksGrow sinks sinks') (h' : SinksGrow sinks' sinks'') :
    SinksGrow sinks sinks'' := fun k uri hc => h' k uri (h k uri hc)

theorem SaveContext.Holds.mono (h : ctx.Holds resolveUri sinks uri)
    (hg : SinksGrow sinks sinks') : ctx.Holds resolveUri sinks' uri := by
  obtain ⟨k, hk, hc⟩ := h
  exact ⟨k, hk, hg k _ hc⟩

/-- A blob a save with a sink stores is present afterwards; no sink loses one. -/
theorem storeAsset_spec {bytes : List UInt8} {F : Fault → Prop} :
    wp (storeAsset resolveUri ctx uri bytes)
      (fun _ sinks' => SinksGrow sinks sinks' ∧
        (ctx.paramsOnly = false → ctx.Holds resolveUri sinks' uri))
      (fun _ sinks' => SinksGrow sinks sinks') F sinks := by
  unfold storeAsset
  refine wp_ite (fun h => ⟨.refl, by simp [h]⟩) fun _ => ?_
  cases hk : ctx.sink with
  | none => exact .refl
  | some k =>
    have hgrow : SinksGrow sinks
        (Function.update sinks k ((sinks k).put (resolveUri ctx.baseUri uri) bytes).2) := by
      intro k' uri' hc
      by_cases hkk : k' = k
      · subst hkk
        rw [Function.update_self]
        exact AssetSink.contains_put hc
      · rwa [Function.update_of_ne hkk]
    rw [wp_ofExcept]
    refine ⟨fun b s' heq => ?_, fun e s' heq => ?_⟩
    · cases heq' : (sinks k).put (resolveUri ctx.baseUri uri) bytes with
      | mk r sink =>
        rw [heq'] at hgrow heq
        cases heq
        refine ⟨hgrow, fun _ => ⟨k, hk, ?_⟩⟩
        rw [Function.update_self]
        exact AssetSink.contains_of_put_ok heq'
    · rw [show s' = _ from (congrArg Prod.snd heq).symm]
      exact hgrow

/-- What a positive answer about a save with a sink means. -/
theorem hasAsset_spec {F : Fault → Prop} {E : AssetSinkError → (ℕ → AssetSink) → Prop} :
    wp (hasAsset resolveUri ctx uri)
      (fun b sinks' => sinks' = sinks ∧
        (b = true → ctx.paramsOnly = false → ctx.Holds resolveUri sinks uri))
      E F sinks := by
  unfold hasAsset
  refine wp_ite (fun h => ⟨rfl, by simp [h]⟩) fun _ => ?_
  cases hk : ctx.sink with
  | none => exact ⟨rfl, fun h => by cases h⟩
  | some k => exact ⟨rfl, fun h _ => ⟨k, hk, h⟩⟩

end ArbitraryComposer
