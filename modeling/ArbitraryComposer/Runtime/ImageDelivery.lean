import ArbitraryComposer.KindImage.PyramidBooks
import ArbitraryComposer.Runtime.ImageLoads

/-!
# What Images Are Given

Every content that waits is listed once, with the one fetch of its URI, and every answer in a queue
is one to a request. So a settle hands an answer to just the contents whose reference resolves to
the URI it is for, and a second answer finds nobody. What is handed over arrives as long as neither
the reference nor the URI has a newline.

## Main definitions

- `ImageDocument.Inv`: what the tables of pending assets say of the contents.
- `ImageDocument.Handed`, `ImageDocument.Installs`: contents that were given an answer.
- `ImageDocument.FetchOk`, `ImageDocument.Waits`: what a fetch found, and a content that waits.

## Main results

- `ImageDocument.Inv.settleArrival`: where the next answer goes.
- `ImageDocument.Inv.loadImage`: a load keeps the tables.
- `ImageDocument.faithful_of_reachable`: the promises hold in every run.
-/

namespace ArbitraryComposer

namespace ImageDocument

variable {π : Type}

/-! ## The invariant -/

variable {d : PyramidDecoder π} {s s' : ImageDocument π} {r r' : BoundImage} {f : ObjectId}
  {entry : AssetEntry} {bytes : AssetBytes}

/-- What holds of a bound content. -/
structure RowOk (s : ImageDocument π) (r : BoundImage) : Prop where
  /-- Its id was handed out. -/
  id_lt : r.id.toNat < s.nextId.toNat
  /-- It has its reference and its URI. -/
  reference : r.Plain → r.content.uri = bytesOf r.source ∧ r.content.resolved = bytesOf r.uri
  /-- Without an answer it has nothing. -/
  unanswered : r.answered = none → r.Plain → r.content.given = [] ∧ r.content.available = false
  /-- With an answer it has that. -/
  answered : ∀ bytes, r.answered = some bytes → (r.uri, bytes) ∈ s.delivered ∧
    (r.Plain → r.content.given = [bytes].filter (· ≠ []))
  /-- Without an answer it waits. -/
  waits : r.source ≠ "" → r.answered = none → ∃ fetch entry,
    s.pending.pendingAssets fetch = some entry ∧ entry.uri = r.uri ∧ r.id ∈ entry.awaiting

/-- What holds of a fetch in flight. -/
structure EntryOk (s : ImageDocument π) (f : ObjectId) (entry : AssetEntry) : Prop where
  /-- Its id was handed out. -/
  id_lt : f.toNat < s.nextId.toNat
  /-- It is valid. -/
  valid : f.valid = true
  /-- It was requested. -/
  requested : (f, entry.uri) ∈ s.requested
  /-- The contents that wait have ids. -/
  awaiting_lt : ∀ id ∈ entry.awaiting, id.toNat < s.nextId.toNat
  /-- Every content waits once. -/
  nodup : entry.awaiting.Nodup
  /-- It waits for its URI. -/
  rows : ∀ r ∈ s.rows, r.id ∈ entry.awaiting → r.answered = none ∧ r.uri = entry.uri

/-- The invariant of the images of a document. -/
structure Inv (s : ImageDocument π) : Prop where
  /-- No id is invalid. -/
  nextId_pos : 0 < s.nextId.toNat
  /-- Every content is bound once. -/
  once : (s.rows.map BoundImage.id).Nodup
  /-- The contents. -/
  rows : ∀ r ∈ s.rows, RowOk s r
  /-- The fetches in flight. -/
  entries : ∀ f entry, s.pending.pendingAssets f = some entry → EntryOk s f entry
  /-- A content waits for one fetch. -/
  apart : ∀ f f' entry entry' id, s.pending.pendingAssets f = some entry →
    s.pending.pendingAssets f' = some entry' → id ∈ entry.awaiting → id ∈ entry'.awaiting → f = f'
  /-- A URI in flight has its fetch. -/
  byUri : ∀ uri f, s.pending.assetByUri uri = some f →
    ∃ entry, s.pending.pendingAssets f = some entry ∧ entry.uri = uri
  /-- Requests have ids. -/
  requested_lt : ∀ p ∈ s.requested, p.1.toNat < s.nextId.toNat
  /-- A request is for one URI. -/
  requested_once : ∀ f uri uri', (f, uri) ∈ s.requested → (f, uri') ∈ s.requested → uri = uri'
  /-- Answers are to requests. -/
  queue : ∀ p ∈ s.pending.ready ++ s.batch, ∃ uri, (p.1, uri) ∈ s.requested ∧
    (uri, p.2) ∈ s.delivered

/-- A content that waited, after it was given an answer. -/
structure Handed (bytes : AssetBytes) (r r' : BoundImage) : Prop where
  /-- It is the same content. -/
  id : r'.id = r.id
  /-- Its parameters. -/
  params : r'.params = r.params
  /-- Its base. -/
  baseUri : r'.baseUri = r.baseUri
  /-- Its reference. -/
  uri : r'.content.uri = r.content.uri
  /-- Its URI. -/
  resolved : r'.content.resolved = r.content.resolved
  /-- It was given the answer. -/
  answered : r'.answered = some bytes
  /-- So it has the bytes, where it had no pixels. -/
  given : r.content.available = false →
    r'.content.given = r.content.given ++ [bytes].filter (· ≠ [])

theorem dropPendingAsset_assets {p : PendingExternalLoads} (h : p.pendingAssets f = some entry) :
    (p.dropPendingAsset f).pendingAssets = Function.update p.pendingAssets f none := by
  rw [PendingExternalLoads.dropPendingAsset, h]

theorem dropPendingAsset_byUri {p : PendingExternalLoads} (h : p.pendingAssets f = some entry) :
    (p.dropPendingAsset f).assetByUri = Function.update p.assetByUri entry.uri none := by
  rw [PendingExternalLoads.dropPendingAsset, h]

/-- An answer to a fetch is settled, or taken within the request: the fetch is over, and the
contents that wait have the answer. -/
theorem Inv.settle (h : s.Inv) (hentry : s.pending.pendingAssets f = some entry)
    (hnextId : s'.nextId = s.nextId) (hrequested : s'.requested = s.requested)
    (hdelivered : s'.delivered = s.delivered)
    (hassets : s'.pending.pendingAssets = (s.pending.dropPendingAsset f).pendingAssets)
    (hbyUri : s'.pending.assetByUri = (s.pending.dropPendingAsset f).assetByUri)
    (hqueue : s'.pending.ready ++ s'.batch ⊆ s.pending.ready ++ s.batch)
    (honce : s'.rows.map BoundImage.id = s.rows.map BoundImage.id)
    (hbytes : (entry.uri, bytes) ∈ s.delivered)
    (hrows : ∀ r' ∈ s'.rows, (r' ∈ s.rows ∧ r'.id ∉ entry.awaiting) ∨
      ∃ r ∈ s.rows, r.id ∈ entry.awaiting ∧ Handed bytes r r') : s'.Inv := by
  rw [dropPendingAsset_assets hentry] at hassets
  rw [dropPendingAsset_byUri hentry] at hbyUri
  have hok := h.entries f entry hentry
  have hpending : ∀ g e, s'.pending.pendingAssets g = some e →
      g ≠ f ∧ s.pending.pendingAssets g = some e := by
    intro g e hg
    rw [hassets] at hg
    by_cases hgf : g = f
    · subst hgf
      rw [Function.update_self] at hg
      cases hg
    · rw [Function.update_of_ne hgf] at hg
      exact ⟨hgf, hg⟩
  constructor
  case nextId_pos =>
    rw [hnextId]
    exact h.nextId_pos
  case once =>
    rw [honce]
    exact h.once
  case rows =>
    intro r' hr'
    rcases hrows r' hr' with ⟨hr, hnot⟩ | ⟨r, hr, hmem, hhanded⟩
    · have hrow := h.rows r' hr
      refine ⟨by rw [hnextId]; exact hrow.id_lt, hrow.reference, hrow.unanswered,
        fun b hb => by rw [hdelivered]; exact hrow.answered b hb, fun hsource hnone => ?_⟩
      obtain ⟨g, e, hg, huri, hid⟩ := hrow.waits hsource hnone
      -- it waits for another fetch
      have hgf : g ≠ f := by
        rintro rfl
        rw [hentry] at hg
        obtain rfl := Option.some.inj hg
        exact hnot hid
      refine ⟨g, e, ?_, huri, hid⟩
      rw [hassets, Function.update_of_ne hgf]
      exact hg
    · have hrow := h.rows r hr
      obtain ⟨hnone, huri⟩ := hok.rows r hr hmem
      have hsource : r'.source = r.source := congrArg sourceOf hhanded.params
      have huri' : r'.uri = r.uri := by
        rw [BoundImage.uri, BoundImage.uri, hhanded.baseUri, hsource]
      have hplain : r'.Plain → r.Plain := by
        rw [BoundImage.Plain, BoundImage.Plain, hsource, huri']
        exact id
      refine ⟨by rw [hhanded.id, hnextId]; exact hrow.id_lt, fun hp => ?_, fun hn => ?_,
        fun b hb => ⟨?_, fun hp => ?_⟩, fun _ hn => ?_⟩
      · rw [hhanded.uri, hhanded.resolved, hsource, huri']
        exact hrow.reference (hplain hp)
      · rw [hhanded.answered] at hn
        cases hn
      · rw [hhanded.answered] at hb
        obtain rfl := Option.some.inj hb
        rw [hdelivered, huri', huri]
        exact hbytes
      · rw [hhanded.answered] at hb
        obtain rfl := Option.some.inj hb
        obtain ⟨hgiven, havailable⟩ := hrow.unanswered hnone (hplain hp)
        rw [hhanded.given havailable, hgiven, List.nil_append]
      · rw [hhanded.answered] at hn
        cases hn
  case entries =>
    intro g e hg
    obtain ⟨hgf, hg⟩ := hpending g e hg
    have he := h.entries g e hg
    refine ⟨by rw [hnextId]; exact he.id_lt, he.valid, by rw [hrequested]; exact he.requested,
      fun id hid => by rw [hnextId]; exact he.awaiting_lt id hid, he.nodup, fun r' hr' hid => ?_⟩
    rcases hrows r' hr' with ⟨hr, -⟩ | ⟨r, hr, hmem, hhanded⟩
    · exact he.rows r' hr hid
    · rw [hhanded.id] at hid
      exact absurd (h.apart g f e entry r.id hg hentry hid hmem) hgf
  case apart =>
    intro g g' e e' id hg hg' hid hid'
    exact h.apart g g' e e' id (hpending g e hg).2 (hpending g' e' hg').2 hid hid'
  case byUri =>
    intro uri g hg
    rw [hbyUri] at hg
    by_cases huri : uri = entry.uri
    · subst huri
      rw [Function.update_self] at hg
      cases hg
    · rw [Function.update_of_ne huri] at hg
      obtain ⟨e, he, heuri⟩ := h.byUri uri g hg
      have hgf : g ≠ f := by
        rintro rfl
        rw [hentry] at he
        obtain rfl := Option.some.inj he
        exact huri heuri.symm
      refine ⟨e, ?_, heuri⟩
      rw [hassets, Function.update_of_ne hgf]
      exact he
  case requested_lt =>
    rw [hrequested, hnextId]
    exact h.requested_lt
  case requested_once =>
    rw [hrequested]
    exact h.requested_once
  case queue =>
    rw [hrequested, hdelivered]
    exact fun p hp => h.queue p (hqueue hp)

/-- Contents may go and answers may come. -/
theorem Inv.shrink (h : s.Inv) (hnextId : s'.nextId = s.nextId)
    (hassets : s'.pending.pendingAssets = s.pending.pendingAssets)
    (hbyUri : s'.pending.assetByUri = s.pending.assetByUri)
    (hrequested : s'.requested = s.requested) (hdelivered : s.delivered ⊆ s'.delivered)
    (hrows : s'.rows.Sublist s.rows)
    (hqueue : ∀ p ∈ s'.pending.ready ++ s'.batch, ∃ uri, (p.1, uri) ∈ s.requested ∧
      (uri, p.2) ∈ s'.delivered) : s'.Inv where
  nextId_pos := by rw [hnextId]; exact h.nextId_pos
  once := h.once.sublist (hrows.map BoundImage.id)
  rows r hr := by
    have hrow := h.rows r (hrows.subset hr)
    exact ⟨by rw [hnextId]; exact hrow.id_lt, hrow.reference, hrow.unanswered,
      fun b hb => ⟨hdelivered (hrow.answered b hb).1, (hrow.answered b hb).2⟩,
      by rw [hassets]; exact hrow.waits⟩
  entries g e hg := by
    rw [hassets] at hg
    have he := h.entries g e hg
    exact ⟨by rw [hnextId]; exact he.id_lt, he.valid, by rw [hrequested]; exact he.requested,
      by rw [hnextId]; exact he.awaiting_lt, he.nodup, fun r hr => he.rows r (hrows.subset hr)⟩
  apart := by rw [hassets]; exact h.apart
  byUri := by rw [hbyUri, hassets]; exact h.byUri
  requested_lt := by rw [hrequested, hnextId]; exact h.requested_lt
  requested_once := by rw [hrequested]; exact h.requested_once
  queue := by rw [hrequested]; exact hqueue

/-! ## Settling -/

/-- The bytes were handed to some contents, and nothing else has changed but the cache. -/
structure Installs (bytes : AssetBytes) (ids : List ObjectId) (s s' : ImageDocument π) : Prop where
  /-- The next id. -/
  nextId : s'.nextId = s.nextId
  /-- The pending assets. -/
  pending : s'.pending = s.pending
  /-- The contents of the version. -/
  records : s'.records = s.records
  /-- The answers that come next. -/
  batch : s'.batch = s.batch
  /-- The requests. -/
  requested : s'.requested = s.requested
  /-- The answers. -/
  delivered : s'.delivered = s.delivered
  /-- The same contents are bound. -/
  bound : s'.rows.map BoundImage.id = s.rows.map BoundImage.id
  /-- The contents. -/
  rows : ∀ r' ∈ s'.rows, (r' ∈ s.rows ∧ r'.id ∉ ids) ∨
    ∃ r ∈ s.rows, r.id ∈ ids ∧ Handed bytes r r'

theorem Installs.nil (s : ImageDocument π) : Installs bytes [] s s :=
  ⟨rfl, rfl, rfl, rfl, rfl, rfl, rfl, fun _ hr => .inl ⟨hr, List.not_mem_nil⟩⟩

/-- One content after the other. -/
theorem Installs.cons {s'' : ImageDocument π} {id : ObjectId} {rest : List ObjectId}
    (h : Installs bytes [id] s s') (h' : Installs bytes rest s' s'') (hid : id ∉ rest) :
    Installs bytes (id :: rest) s s'' where
  nextId := h'.nextId.trans h.nextId
  pending := h'.pending.trans h.pending
  records := h'.records.trans h.records
  batch := h'.batch.trans h.batch
  requested := h'.requested.trans h.requested
  delivered := h'.delivered.trans h.delivered
  bound := h'.bound.trans h.bound
  rows r'' hr'' := by
    rcases h'.rows r'' hr'' with ⟨hr', hrest⟩ | ⟨r', hr', hrest, hhanded⟩
    · rcases h.rows r'' hr' with ⟨hr, hne⟩ | ⟨r, hr, hmem, hhanded⟩
      · refine .inl ⟨hr, fun hmem => ?_⟩
        rcases List.mem_cons.mp hmem with heq | hmem
        · exact hne (heq ▸ List.mem_singleton_self _)
        · exact hrest hmem
      · exact .inr ⟨r, hr, List.mem_cons.mpr (.inl (List.mem_singleton.mp hmem)), hhanded⟩
    · rcases h.rows r' hr' with ⟨hr, -⟩ | ⟨r, hr, hmem, hfirst⟩
      · exact .inr ⟨r', hr, List.mem_cons_of_mem _ hrest, hhanded⟩
      · -- the first content does not wait twice
        rw [hfirst.id, List.mem_singleton.mp hmem] at hrest
        exact absurd hrest hid

/-- `Content::install_asset` hands the bytes to the content. -/
theorem handed_installAsset (cache : PyramidCache π) (r : BoundImage) :
    Handed bytes r { r with
      content := (r.content.installAsset d cache bytes).2.1
      answered := some bytes } := by
  rw [ImageContent.installAsset]
  split
  case isTrue havailable =>
    refine ⟨rfl, rfl, rfl, rfl, rfl, rfl, fun hnone => ?_⟩
    rw [havailable] at hnone
    cases hnone
  case isFalse => exact ⟨rfl, rfl, rfl, rfl, rfl, rfl, fun _ => rfl⟩

/-- One content. -/
theorem installs_install (honce : (s.rows.map BoundImage.id).Nodup) (bytes : AssetBytes)
    (id : ObjectId) : Installs bytes [id] s (s.install d bytes id).2 := by
  rw [install]
  split
  case h_1 hnone =>
    refine ⟨rfl, rfl, rfl, rfl, rfl, rfl, rfl, fun r hr => .inl ⟨hr, fun hmem => ?_⟩⟩
    exact absurd (List.mem_singleton.mp hmem)
      (by simpa using List.find?_eq_none.mp hnone r hr)
  case h_2 row hrow =>
    have hmem : row ∈ s.rows := List.mem_of_find?_eq_some hrow
    have hid : row.id = id := by simpa using List.find?_some hrow
    refine ⟨rfl, rfl, rfl, rfl, rfl, rfl, ?_, fun r' hr' => ?_⟩
    · rw [List.map_map]
      refine List.map_congr_left fun r _ => ?_
      show (if r.id = id then _ else r : BoundImage).id = r.id
      split <;> rfl
    · obtain ⟨r, hr, rfl⟩ := List.mem_map.mp hr'
      split
      case isTrue heq =>
        -- the content with the id is the one that was found
        obtain rfl : r = row := List.inj_on_of_nodup_map honce hr hmem (heq.trans hid.symm)
        exact .inr ⟨r, hr, List.mem_singleton.mpr heq, handed_installAsset s.cache r⟩
      case isFalse hne => exact .inl ⟨hr, fun hm => hne (List.mem_singleton.mp hm)⟩

/-- All that wait. -/
theorem installs_installAll {ids : List ObjectId} (honce : (s.rows.map BoundImage.id).Nodup)
    (hnodup : ids.Nodup) : Installs bytes ids s (installAll d bytes ids s).2 := by
  induction ids generalizing s with
  | nil => exact Installs.nil s
  | cons id rest ih =>
    obtain ⟨hid, hrest⟩ := List.nodup_cons.mp hnodup
    have hfirst := installs_install (d := d) honce bytes id
    have honce' : ((s.install d bytes id).2.rows.map BoundImage.id).Nodup := hfirst.bound ▸ honce
    exact hfirst.cons (ih honce' hrest) hid

/-- Where none of the contents is bound, nothing happens. -/
theorem installAll_of_unbound {ids : List ObjectId} (h : ∀ r ∈ s.rows, r.id ∉ ids) :
    installAll d bytes ids s = ([], s) := by
  induction ids with
  | nil => rfl
  | cons id rest ih =>
    have hnone : s.rows.find? (fun r => decide (r.id = id)) = none := by
      apply List.find?_eq_none.mpr
      intro r hr heq
      exact h r hr (List.mem_cons.mpr (.inl (of_decide_eq_true heq)))
    have hinstall : s.install d bytes id = (false, s) := by rw [install, hnone]
    have hrest := ih fun r hr hmem => h r hr (List.mem_cons_of_mem _ hmem)
    rw [installAll, hinstall]
    show (if false = true then _ else _, _) = _
    rw [hrest]
    rfl

/-- An answer is settled. -/
theorem Inv.settleArrival {rest : List (ObjectId × AssetBytes)} (h : s.Inv)
    (hbatch : s.batch = (f, bytes) :: rest) :
    (({ s with batch := rest } : ImageDocument π).settleArrival d f bytes).Inv ∧
      s.Settles (({ s with batch := rest } : ImageDocument π).settleArrival d f bytes) f bytes
        rest := by
  have hqueue : s.pending.ready ++ rest ⊆ s.pending.ready ++ s.batch := by
    rw [hbatch]
    exact List.append_subset.mpr ⟨List.subset_append_left _ _, fun p hp =>
      List.mem_append_right _ (List.mem_cons_of_mem _ hp)⟩
  rw [ImageDocument.settleArrival]
  split
  case h_1 hnone =>
    have hnone' : s.pending.pendingAssets f = none := hnone
    refine ⟨h.shrink rfl rfl rfl rfl (List.Subset.refl _) (List.Sublist.refl _) fun p hp =>
      h.queue p (hqueue hp), ?_⟩
    refine ⟨fun _ => rfl, fun entry hentry => ?_, rfl, fun r' hr' => .inl hr'⟩
    rw [hnone'] at hentry
    cases hentry
  case h_2 entry hentry =>
    have hentry' : s.pending.pendingAssets f = some entry := hentry
    have hok := h.entries f entry hentry'
    -- the answer is one for the URI of the fetch
    obtain ⟨uri, huri, hdelivered⟩ := h.queue (f, bytes)
      (List.mem_append_right _ (hbatch ▸ List.mem_cons_self))
    have hsame : uri = entry.uri := h.requested_once f _ _ huri hok.requested
    let s₁ : ImageDocument π :=
      { s with batch := rest, pending := s.pending.dropPendingAsset f }
    have hinstalls : Installs bytes entry.awaiting s₁ (installAll d bytes entry.awaiting s₁).2 :=
      installs_installAll h.once hok.nodup
    have hunbound : (∀ r ∈ s.rows, r.id ∉ entry.awaiting) →
        installAll d bytes entry.awaiting s₁ = ([], s₁) := fun hnot => installAll_of_unbound hnot
    show (if (installAll d bytes entry.awaiting s₁).1 = [] then _ else _ : ImageDocument π).Inv ∧
      s.Settles (if (installAll d bytes entry.awaiting s₁).1 = [] then _ else _) f bytes rest
    revert hinstalls hunbound
    generalize installAll d bytes entry.awaiting s₁ = result
    obtain ⟨damaged, s₂⟩ := result
    intro hinstalls hunbound
    have hinv : ∀ published, ({ s₂ with published } : ImageDocument π).Inv := by
      intro published
      have hpending : s₂.pending = s.pending.dropPendingAsset f := hinstalls.pending
      refine h.settle hentry' hinstalls.nextId hinstalls.requested hinstalls.delivered
        (congrArg PendingExternalLoads.pendingAssets hpending)
        (congrArg PendingExternalLoads.assetByUri hpending) ?_ hinstalls.bound
        (hsame ▸ hdelivered) hinstalls.rows
      show s₂.pending.ready ++ s₂.batch ⊆ _
      rw [hpending, PendingExternalLoads.dropPendingAsset_ready, hinstalls.batch]
      exact hqueue
    have hsettles : ∀ published, (damaged = [] → published = s₂.published) →
        s.Settles { s₂ with published } f bytes rest := by
      intro published hpublished
      refine ⟨fun hnone => ?_, fun entry' hentry'' hnot => ?_, hinstalls.records,
        fun r' hr' => ?_⟩
      · rw [hentry'] at hnone
        cases hnone
      · rw [hentry'] at hentry''
        obtain rfl := Option.some.inj hentry''
        obtain ⟨rfl, rfl⟩ := Prod.mk.inj (hunbound hnot)
        rw [hpublished rfl]
      · rcases hinstalls.rows r' hr' with ⟨hr, -⟩ | ⟨r, hr, hmem, hhanded⟩
        · exact .inl hr
        · exact .inr ⟨hhanded.answered, entry, hentry', hhanded.id ▸ hmem⟩
    dsimp only
    split
    case isTrue hempty => exact ⟨hinv s₂.published, hsettles s₂.published fun _ => rfl⟩
    case isFalse hsome =>
      exact ⟨hinv (damaged :: s₂.published),
        hsettles (damaged :: s₂.published) fun hempty => absurd hempty hsome⟩

/-! ## Loading -/

/-- What a fetch found. -/
structure FetchOk (s : ImageDocument π) (baseUri source : String) (fetched : FetchedAsset) :
    Prop where
  /-- The URI of the reference. -/
  resolved : fetched.resolved = imageUri baseUri source
  /-- Nothing is fetched for the empty reference. -/
  empty : source = "" → fetched.pending.valid = false ∧ fetched.bytes = []
  /-- A fetch in flight is one for the URI, and has no bytes yet. -/
  waits : fetched.pending.valid = true → fetched.bytes = [] ∧ ∃ entry,
    s.pending.pendingAssets fetched.pending = some entry ∧ entry.uri = imageUri baseUri source
  /-- Any other was answered. -/
  answered : source ≠ "" → fetched.pending.valid = false →
    (imageUri baseUri source, fetched.bytes) ∈ s.delivered

theorem valid_of_pos {id : ObjectId} (h : 0 < id.toNat) : id.valid = true := by
  rw [ObjectId.valid, bne_iff_ne]
  rintro rfl
  exact Nat.lt_irrefl 0 h

theorem toNat_succ {id : ObjectId} (h : id.toNat + 1 < 2 ^ 64) :
    (id + 1).toNat = id.toNat + 1 := by
  rw [UInt64.toNat_add]
  exact Nat.mod_eq_of_lt h

/-- A request, and the answers within it. -/
theorem Inv.request (h : s.Inv) {uri : String} (answers : List AssetBytes)
    (hnextId : s.nextId.toNat + 2 < 2 ^ 64) (hnone : s.pending.assetByUri uri = none)
    (hs' : s' = { s with
      nextId := s.nextId + 1
      requested := (s.nextId, uri) :: s.requested
      delivered := answers.map (uri, ·) ++ s.delivered
      pending := answers.foldl (fun p bytes => p.complete s.nextId bytes)
        (s.pending.addPendingAsset s.nextId uri) }) : s'.Inv := by
  have hvalid : s.nextId.valid = true := valid_of_pos h.nextId_pos
  have hid : (s.nextId + 1).toNat = s.nextId.toNat + 1 := toNat_succ (by omega)
  have hnew : s.pending.pendingAssets s.nextId = none := by
    cases hentry : s.pending.pendingAssets s.nextId with
    | none => rfl
    | some entry => exact absurd (h.entries _ entry hentry).id_lt (Nat.lt_irrefl _)
  rw [PendingExternalLoads.foldl_complete] at hs'
  subst hs'
  have hpending : ∀ g e,
      Function.update s.pending.pendingAssets s.nextId (some ⟨uri, []⟩) g = some e →
      g = s.nextId ∧ e = ⟨uri, []⟩ ∨ g ≠ s.nextId ∧ s.pending.pendingAssets g = some e := by
    intro g e hg
    by_cases hgn : g = s.nextId
    · subst hgn
      rw [Function.update_self] at hg
      exact .inl ⟨rfl, (Option.some.inj hg).symm⟩
    · rw [Function.update_of_ne hgn] at hg
      exact .inr ⟨hgn, hg⟩
  constructor
  case nextId_pos =>
    show 0 < (s.nextId + 1).toNat
    omega
  case once => exact h.once
  case rows =>
    intro r hr
    have hrow := h.rows r hr
    refine ⟨?_, hrow.reference, hrow.unanswered, fun b hb => ?_, fun hsource hnone => ?_⟩
    · show r.id.toNat < (s.nextId + 1).toNat
      have hlt := hrow.id_lt
      omega
    · obtain ⟨hdelivered, hgiven⟩ := hrow.answered b hb
      exact ⟨List.mem_append_right _ hdelivered, hgiven⟩
    · obtain ⟨g, e, hg, huri, hmem⟩ := hrow.waits hsource hnone
      refine ⟨g, e, ?_, huri, hmem⟩
      have hgn : g ≠ s.nextId := fun heq => by
        rw [heq, hnew] at hg
        cases hg
      exact (Function.update_of_ne hgn _ _).trans hg
  case entries =>
    intro g e hg
    rcases hpending g e hg with ⟨rfl, rfl⟩ | ⟨-, hg⟩
    · refine ⟨?_, hvalid, List.mem_cons_self, fun id hmem => (nomatch hmem), List.nodup_nil,
        fun r _ hmem => (nomatch hmem)⟩
      show s.nextId.toNat < (s.nextId + 1).toNat
      omega
    · have he := h.entries g e hg
      refine ⟨?_, he.valid, List.mem_cons_of_mem _ he.requested, fun id hmem => ?_, he.nodup,
        he.rows⟩
      · show g.toNat < (s.nextId + 1).toNat
        have hlt := he.id_lt
        omega
      · show id.toNat < (s.nextId + 1).toNat
        have hlt := he.awaiting_lt id hmem
        omega
  case apart =>
    intro g g' e e' id hg hg' hmem hmem'
    rcases hpending g e hg with ⟨rfl, rfl⟩ | ⟨-, hg⟩
    · cases hmem
    · rcases hpending g' e' hg' with ⟨rfl, rfl⟩ | ⟨-, hg'⟩
      · cases hmem'
      · exact h.apart g g' e e' id hg hg' hmem hmem'
  case byUri =>
    intro uri' g hg
    have hg' : Function.update s.pending.assetByUri uri (some s.nextId) uri' = some g := hg
    by_cases huri : uri' = uri
    · subst huri
      rw [Function.update_self] at hg'
      obtain rfl := Option.some.inj hg'
      exact ⟨⟨uri', []⟩, Function.update_self _ _ _, rfl⟩
    · rw [Function.update_of_ne huri] at hg'
      obtain ⟨e, he, heuri⟩ := h.byUri uri' g hg'
      have hgn : g ≠ s.nextId := fun heq => by
        rw [heq, hnew] at he
        cases he
      exact ⟨e, (Function.update_of_ne hgn _ _).trans he, heuri⟩
  case requested_lt =>
    intro p hp
    show p.1.toNat < (s.nextId + 1).toNat
    rcases List.mem_cons.mp hp with rfl | hp
    · dsimp only
      omega
    · have hlt := h.requested_lt p hp
      omega
  case requested_once =>
    intro g uri₁ uri₂ h₁ h₂
    rcases List.mem_cons.mp h₁ with heq₁ | h₁ <;> rcases List.mem_cons.mp h₂ with heq₂ | h₂
    · obtain ⟨-, rfl⟩ := Prod.mk.inj heq₁
      obtain ⟨-, rfl⟩ := Prod.mk.inj heq₂
      rfl
    · obtain ⟨rfl, -⟩ := Prod.mk.inj heq₁
      exact absurd (h.requested_lt _ h₂) (Nat.lt_irrefl _)
    · obtain ⟨rfl, -⟩ := Prod.mk.inj heq₂
      exact absurd (h.requested_lt _ h₁) (Nat.lt_irrefl _)
    · exact h.requested_once g uri₁ uri₂ h₁ h₂
  case queue =>
    intro p hp
    have hold : p ∈ s.pending.ready ++ s.batch → ∃ uri',
        (p.1, uri') ∈ (s.nextId, uri) :: s.requested ∧
          (uri', p.2) ∈ answers.map (uri, ·) ++ s.delivered := by
      intro hp
      obtain ⟨uri', hrequested, hdelivered⟩ := h.queue p hp
      exact ⟨uri', List.mem_cons_of_mem _ hrequested, List.mem_append_right _ hdelivered⟩
    rcases List.mem_append.mp hp with hready | hbatch
    · rcases List.mem_append.mp hready with hready | hanswer
      · exact hold (List.mem_append_left _ hready)
      · obtain ⟨b, hb, rfl⟩ := List.mem_map.mp hanswer
        exact ⟨uri, List.mem_cons_self, List.mem_append_left _ (List.mem_map_of_mem hb)⟩
    · exact hold (List.mem_append_right _ hbatch)

/-- A fetch keeps the invariant. -/
theorem Inv.fetch (h : s.Inv) (hnextId : s.nextId.toNat + 2 < 2 ^ 64) (baseUri source : String)
    (answers : List AssetBytes) :
    (s.fetch baseUri source answers).2.Inv ∧
      (s.fetch baseUri source answers).2.nextId.toNat + 1 < 2 ^ 64 ∧
      (s.fetch baseUri source answers).2.FetchOk baseUri source
        (s.fetch baseUri source answers).1 := by
  rw [ImageDocument.fetch]
  split
  case isTrue hempty =>
    subst hempty
    exact ⟨h, Nat.lt_of_succ_lt hnextId, rfl, fun _ => ⟨rfl, rfl⟩, fun hvalid => (nomatch hvalid),
      fun hne => absurd rfl hne⟩
  case isFalse hne =>
    dsimp only
    split
    case h_1 fetch hfetch =>
      -- the URI is in flight already
      obtain ⟨entry, hentry, huri⟩ := h.byUri _ fetch hfetch
      have hvalid := (h.entries fetch entry hentry).valid
      refine ⟨h, Nat.lt_of_succ_lt hnextId, rfl, fun heq => absurd heq hne,
        fun _ => ⟨rfl, entry, hentry, huri⟩, fun _ hnone => ?_⟩
      rw [hvalid] at hnone
      cases hnone
    case h_2 hnone =>
      have hid : (s.nextId + 1).toNat + 1 < 2 ^ 64 := by
        rw [toNat_succ (Nat.lt_of_succ_lt hnextId)]
        exact hnextId
      have hinv := h.request answers hnextId hnone rfl
      have hvalid : s.nextId.valid = true := valid_of_pos h.nextId_pos
      have hentry : (answers.foldl (fun p bytes => p.complete s.nextId bytes)
          (s.pending.addPendingAsset s.nextId (imageUri baseUri source))).pendingAssets s.nextId =
          some ⟨imageUri baseUri source, []⟩ := by
        rw [PendingExternalLoads.foldl_complete]
        exact Function.update_self _ _ _
      revert hinv hentry
      generalize answers.foldl (fun p bytes => p.complete s.nextId bytes)
        (s.pending.addPendingAsset s.nextId (imageUri baseUri source)) = pending
      intro hinv hentry
      split
      case h_1 =>
        refine ⟨hinv, hid, rfl, fun heq => absurd heq hne, fun _ => ⟨rfl, _, hentry, rfl⟩,
          fun _ hnone => ?_⟩
        rw [hvalid] at hnone
        cases hnone
      case h_2 bytes hlookup =>
        -- the first answer within the request is taken, and the fetch is over
        obtain ⟨before, after, hsplit, -⟩ := List.lookup_eq_some_iff.mp hlookup
        have hready : (s.nextId, bytes) ∈ pending.ready := by
          rw [hsplit]
          exact List.mem_append_right _ List.mem_cons_self
        obtain ⟨uri, huri, hdelivered⟩ := hinv.queue _ (List.mem_append_left _ hready)
        have hsame : uri = imageUri baseUri source :=
          hinv.requested_once s.nextId _ _ huri List.mem_cons_self
        have hdropped : (pending.dropArrival s.nextId).pendingAssets s.nextId =
            some ⟨imageUri baseUri source, []⟩ := hentry
        refine ⟨?_, hid, rfl, fun heq => absurd heq hne, fun hvalid => (nomatch hvalid),
          fun _ _ => hsame ▸ hdelivered⟩
        refine hinv.settle hentry rfl rfl rfl ?_ ?_ ?_ rfl (hsame ▸ hdelivered) fun r' hr' =>
          .inl ⟨hr', List.not_mem_nil⟩
        · rw [dropPendingAsset_assets hentry, dropPendingAsset_assets hdropped]
          rfl
        · rw [dropPendingAsset_byUri hentry, dropPendingAsset_byUri hdropped]
          rfl
        · rw [PendingExternalLoads.dropPendingAsset_ready]
          exact List.append_subset.mpr ⟨fun p hp =>
            List.mem_append_left _ (List.mem_of_mem_eraseP hp), List.subset_append_right _ _⟩

/-- A content waits for a fetch from now on, where that is valid. -/
structure Waits (p p' : PendingExternalLoads) (f id : ObjectId) : Prop where
  /-- The fetches in flight stay. -/
  forward : ∀ {g e}, p.pendingAssets g = some e →
    ∃ e', p'.pendingAssets g = some e' ∧ e'.uri = e.uri ∧ e.awaiting ⊆ e'.awaiting
  /-- No other content waits than before. -/
  backward : ∀ {g e'}, p'.pendingAssets g = some e' →
    ∃ e, p.pendingAssets g = some e ∧ e'.uri = e.uri ∧
      (e'.awaiting = e.awaiting ∨
        f.valid = true ∧ g = f ∧ e'.awaiting = e.awaiting ++ [id])
  /-- The content does. -/
  waits : f.valid = true → ∃ e', p'.pendingAssets f = some e' ∧ id ∈ e'.awaiting
  /-- The URIs in flight. -/
  byUri : p'.assetByUri = p.assetByUri
  /-- The queue. -/
  ready : p'.ready = p.ready

theorem waits_addAssetWaiter {p : PendingExternalLoads} {f : ObjectId} (id : ObjectId)
    (h : f.valid = true → ∃ e, p.pendingAssets f = some e) :
    Waits p (if f.valid then p.addAssetWaiter f id else p) f id := by
  by_cases hvalid : f.valid = true
  case neg =>
    rw [if_neg hvalid]
    exact ⟨fun he => ⟨_, he, rfl, List.Subset.refl _⟩, fun he => ⟨_, he, rfl, .inl rfl⟩,
      fun hv => absurd hv hvalid, rfl, rfl⟩
  case pos =>
    obtain ⟨e, he⟩ := h hvalid
    rw [if_pos hvalid, PendingExternalLoads.addAssetWaiter, he]
    refine ⟨fun {g a} ha => ?_, fun {g a} ha => ?_, fun _ => ?_, rfl, rfl⟩
    · by_cases hg : g = f
      · subst hg
        rw [he] at ha
        obtain rfl := Option.some.inj ha
        exact ⟨_, Function.update_self _ _ _, rfl, List.subset_append_left _ _⟩
      · exact ⟨a, (Function.update_of_ne hg _ _).trans ha, rfl, List.Subset.refl _⟩
    · by_cases hg : g = f
      · subst hg
        have heq : some { e with awaiting := e.awaiting ++ [id] } = some a :=
          (Function.update_self g _ p.pendingAssets).symm.trans ha
        obtain rfl := Option.some.inj heq
        exact ⟨e, he, rfl, .inr ⟨hvalid, rfl, rfl⟩⟩
      · exact ⟨a, (Function.update_of_ne hg _ _).symm.trans ha, rfl, .inl rfl⟩
    · exact ⟨_, Function.update_self _ _ _,
        List.mem_append_right _ (List.mem_singleton_self _)⟩

/-- The sink binds the content that was built. -/
theorem Inv.sink {fetched : FetchedAsset} {baseUri : String} {params : Json}
    {content : ImageContent} {cache : PyramidCache π} (h : s.Inv)
    (hnextId : s.nextId.toNat + 1 < 2 ^ 64)
    (hfetched : s.FetchOk baseUri (sourceOf params) fetched)
    (hcontent : makeImageContent d s.cache (imageConfig (bytesOf (sourceOf params))
      (bytesOf fetched.resolved) fetched.bytes) = .ok (content, cache))
    (hs' : s' = { s with
      nextId := s.nextId + 1
      cache
      rows := s.rows ++ [⟨s.nextId, content, params, baseUri,
        if sourceOf params = "" ∨ fetched.pending.valid then none else some fetched.bytes⟩]
      records := s.records ++ [s.nextId]
      pending := if fetched.pending.valid then s.pending.addAssetWaiter fetched.pending s.nextId
        else s.pending }) : s'.Inv := by
  have hid : (s.nextId + 1).toNat = s.nextId.toNat + 1 := toNat_succ hnextId
  let new : BoundImage := ⟨s.nextId, content, params, baseUri,
    if sourceOf params = "" ∨ fetched.pending.valid then none else some fetched.bytes⟩
  have hnew : ∀ r ∈ s.rows, r.id ≠ s.nextId := fun r hr heq =>
    absurd (heq ▸ (h.rows r hr).id_lt) (Nat.lt_irrefl _)
  have hpending : Waits s.pending s'.pending fetched.pending s.nextId := by
    subst hs'
    exact waits_addAssetWaiter s.nextId fun hvalid =>
      (hfetched.waits hvalid).2.imp fun _ he => he.1
  have hrows : s'.rows = s.rows ++ [new] := by rw [hs']
  have hnextId' : s'.nextId.toNat = s.nextId.toNat + 1 := by rw [hs']; exact hid
  have hrequested : s'.requested = s.requested := by rw [hs']
  have hdelivered : s'.delivered = s.delivered := by rw [hs']
  have hbatch : s'.batch = s.batch := by rw [hs']
  constructor
  case nextId_pos => omega
  case once =>
    rw [hrows, List.map_append]
    refine List.nodup_append.mpr ⟨h.once, List.nodup_singleton _, fun id hmem id' hmem' heq => ?_⟩
    obtain ⟨r, hr, rfl⟩ := List.mem_map.mp hmem
    exact hnew r hr (heq.trans (List.mem_singleton.mp hmem'))
  case rows =>
    intro r hr
    rw [hrows] at hr
    rcases List.mem_append.mp hr with hr | hr
    · have hrow := h.rows r hr
      refine ⟨by have hlt := hrow.id_lt; omega, hrow.reference, hrow.unanswered,
        fun b hb => by rw [hdelivered]; exact hrow.answered b hb, fun hsource hnone => ?_⟩
      obtain ⟨g, e, hg, huri, hmem⟩ := hrow.waits hsource hnone
      obtain ⟨e', hg', huri', hsub⟩ := hpending.forward hg
      exact ⟨g, e', hg', huri'.trans huri, hsub hmem⟩
    · obtain rfl : r = new := List.mem_singleton.mp hr
      have hanswered : new.answered =
          if sourceOf params = "" ∨ fetched.pending.valid then none else some fetched.bytes := rfl
      refine ⟨by rw [hnextId']; exact Nat.lt_succ_self _, fun hp => ?_, fun hnone hp => ?_,
        fun b hb => ?_, fun hsource hnone => ?_⟩
      · obtain ⟨huri, hresolved, -, -⟩ := makeImageContent_spec d hp.1
          (by rw [hfetched.resolved]; exact hp.2) hcontent
        exact ⟨huri, by rw [hresolved, hfetched.resolved]; rfl⟩
      · obtain ⟨-, -, hgiven, havailable⟩ := makeImageContent_spec d hp.1
          (by rw [hfetched.resolved]; exact hp.2) hcontent
        have hbytes : fetched.bytes = [] := by
          rw [hanswered] at hnone
          split at hnone
          case isTrue hcase => exact hcase.elim (fun he => (hfetched.empty he).2) fun hv =>
            (hfetched.waits hv).1
          case isFalse => cases hnone
        exact ⟨by rw [hgiven, hbytes]; rfl, havailable hbytes⟩
      · rw [hanswered] at hb
        split at hb
        case isTrue => cases hb
        case isFalse hcase =>
          obtain ⟨hsource, hvalid⟩ := not_or.mp hcase
          obtain rfl := Option.some.inj hb
          refine ⟨hdelivered ▸ hfetched.answered hsource (Bool.eq_false_iff.mpr hvalid),
            fun hp => ?_⟩
          exact (makeImageContent_spec d hp.1 (by rw [hfetched.resolved]; exact hp.2)
            hcontent).2.2.1
      · rw [hanswered] at hnone
        split at hnone
        case isFalse => cases hnone
        case isTrue hcase =>
          have hvalid : fetched.pending.valid = true := hcase.resolve_left hsource
          obtain ⟨-, e, he, huri⟩ := hfetched.waits hvalid
          obtain ⟨e', he', hmem⟩ := hpending.waits hvalid
          obtain ⟨e'', he'', huri', -⟩ := hpending.forward he
          rw [he'] at he''
          obtain rfl := Option.some.inj he''
          exact ⟨fetched.pending, e', he', huri'.trans huri, hmem⟩
  case entries =>
    intro g e' hg'
    obtain ⟨e, hg, huri, hawaiting⟩ := hpending.backward hg'
    have he := h.entries g e hg
    have hlt : s.nextId ∉ e.awaiting := fun hmem =>
      absurd (he.awaiting_lt s.nextId hmem) (Nat.lt_irrefl _)
    refine ⟨by have hg_lt := he.id_lt; omega, he.valid,
      by rw [hrequested, huri]; exact he.requested, fun id hmem => ?_, ?_, fun r hr hmem => ?_⟩
    · rcases hawaiting with hsame | ⟨-, -, hmore⟩
      · have hid_lt := he.awaiting_lt id (hsame ▸ hmem)
        omega
      · rw [hmore] at hmem
        rcases List.mem_append.mp hmem with hmem | hmem
        · have hid_lt := he.awaiting_lt id hmem
          omega
        · rw [List.mem_singleton.mp hmem]
          omega
    · rcases hawaiting with hsame | ⟨-, -, hmore⟩
      · exact hsame ▸ he.nodup
      · rw [hmore]
        exact List.nodup_append.mpr ⟨he.nodup, List.nodup_singleton _, fun id hmem id' hmem' heq =>
          hlt (List.mem_singleton.mp hmem' ▸ heq ▸ hmem)⟩
    · rw [hrows] at hr
      rw [huri]
      rcases List.mem_append.mp hr with hr | hr
      · refine he.rows r hr ?_
        rcases hawaiting with hsame | ⟨-, -, hmore⟩
        · exact hsame ▸ hmem
        · rw [hmore] at hmem
          exact (List.mem_append.mp hmem).resolve_right fun hmem =>
            hnew r hr (List.mem_singleton.mp hmem)
      · obtain rfl : r = new := List.mem_singleton.mp hr
        rcases hawaiting with hsame | ⟨hvalid, rfl, -⟩
        · exact absurd (hsame ▸ hmem) hlt
        · obtain ⟨-, e₀, he₀, huri₀⟩ := hfetched.waits hvalid
          rw [hg] at he₀
          obtain rfl := Option.some.inj he₀
          exact ⟨if_pos (.inr hvalid), huri₀.symm⟩
  case apart =>
    intro g₁ g₂ e₁ e₂ id hg₁ hg₂ hmem₁ hmem₂
    obtain ⟨a₁, ha₁, -, hawaiting₁⟩ := hpending.backward hg₁
    obtain ⟨a₂, ha₂, -, hawaiting₂⟩ := hpending.backward hg₂
    by_cases heq : id = s.nextId
    · -- only the one fetch has the new content
      subst heq
      rcases hawaiting₁ with hsame | ⟨-, rfl, -⟩
      · exact absurd ((h.entries g₁ a₁ ha₁).awaiting_lt _ (hsame ▸ hmem₁)) (Nat.lt_irrefl _)
      · rcases hawaiting₂ with hsame | ⟨-, rfl, -⟩
        · exact absurd ((h.entries g₂ a₂ ha₂).awaiting_lt _ (hsame ▸ hmem₂)) (Nat.lt_irrefl _)
        · rfl
    · have hold : ∀ {g : ObjectId} {a e : AssetEntry}, (e.awaiting = a.awaiting ∨
          fetched.pending.valid = true ∧ g = fetched.pending ∧
            e.awaiting = a.awaiting ++ [s.nextId]) → id ∈ e.awaiting → id ∈ a.awaiting := by
        rintro g a e (hsame | ⟨-, -, hmore⟩) hmem
        · exact hsame ▸ hmem
        · rw [hmore] at hmem
          exact (List.mem_append.mp hmem).resolve_right fun hmem =>
            heq (List.mem_singleton.mp hmem)
      exact h.apart g₁ g₂ a₁ a₂ id ha₁ ha₂ (hold hawaiting₁ hmem₁) (hold hawaiting₂ hmem₂)
  case byUri =>
    intro uri g hg
    rw [hpending.byUri] at hg
    obtain ⟨e, he, huri⟩ := h.byUri uri g hg
    obtain ⟨e', he', huri', -⟩ := hpending.forward he
    exact ⟨e', he', huri'.trans huri⟩
  case requested_lt =>
    intro p hp
    rw [hrequested] at hp
    have hlt := h.requested_lt p hp
    omega
  case requested_once =>
    rw [hrequested]
    exact h.requested_once
  case queue =>
    rw [hpending.ready, hbatch, hrequested, hdelivered]
    exact h.queue

/-- A load of an image keeps the invariant. -/
theorem Inv.loadImage (h : s.Inv) (hnextId : s.nextId.toNat + 2 < 2 ^ 64) (baseUri : String)
    (params : Json) (answers : List AssetBytes) :
    (s.loadImage d baseUri params answers).Inv := by
  rw [ImageDocument.loadImage]
  obtain ⟨hinv, hlt, hfetched⟩ := h.fetch hnextId baseUri (sourceOf params) answers
  revert hinv hlt hfetched
  generalize s.fetch baseUri (sourceOf params) answers = result
  obtain ⟨fetched, s₁⟩ := result
  intro hinv hlt hfetched
  dsimp only
  split
  case h_1 => exact hinv
  case h_2 content cache hcontent => exact hinv.sink hlt hfetched hcontent rfl

/-! ## Runs -/

/-- Every event keeps the invariant. -/
theorem Inv.step {e : ImageEvent} (h : s.Inv) (hs : step d e s = some s') : s'.Inv := by
  have hqueue : ∀ p ∈ s.pending.ready ++ s.batch, ∃ uri, (p.1, uri) ∈ s.requested ∧
      (uri, p.2) ∈ s.delivered := h.queue
  cases e with
  | load baseUri params answers =>
    simp only [ImageDocument.step] at hs
    split at hs
    case isFalse => cases hs
    case isTrue hnextId =>
      obtain rfl := Option.some.inj hs
      exact h.loadImage hnextId baseUri params answers
  | answer fetch bytes =>
    simp only [ImageDocument.step, Option.map_eq_some_iff] at hs
    obtain ⟨uri, huri, rfl⟩ := hs
    refine h.shrink rfl rfl rfl rfl (List.subset_cons_self _ _) (List.Sublist.refl _) fun p hp => ?_
    rw [PendingExternalLoads.complete, List.append_assoc] at hp
    rcases List.mem_append.mp hp with hready | hp
    · obtain ⟨uri', hrequested, hdelivered⟩ := hqueue p (List.mem_append_left _ hready)
      exact ⟨uri', hrequested, List.mem_cons_of_mem _ hdelivered⟩
    · rcases List.mem_cons.mp hp with rfl | hbatch
      · obtain ⟨before, after, hsplit, -⟩ := List.lookup_eq_some_iff.mp huri
        refine ⟨uri, ?_, List.mem_cons_self⟩
        rw [hsplit]
        exact List.mem_append_right _ List.mem_cons_self
      · obtain ⟨uri', hrequested, hdelivered⟩ := hqueue p (List.mem_append_right _ hbatch)
        exact ⟨uri', hrequested, List.mem_cons_of_mem _ hdelivered⟩
  | takeReady =>
    simp only [ImageDocument.step] at hs
    split at hs
    case h_2 => cases hs
    case h_1 =>
      obtain rfl := Option.some.inj hs
      exact h.shrink rfl rfl rfl rfl (List.Subset.refl _) (List.Sublist.refl _) fun p hp =>
        hqueue p (List.mem_append_left _ hp)
  | settleNext =>
    simp only [ImageDocument.step] at hs
    split at hs
    case h_1 => cases hs
    case h_2 arrival rest hbatch =>
      obtain rfl := Option.some.inj hs
      exact (h.settleArrival hbatch).1
  | remove id =>
    obtain rfl := Option.some.inj hs
    exact h.shrink rfl rfl rfl rfl (List.Subset.refl _) (List.Sublist.refl _) hqueue
  | undo id =>
    simp only [ImageDocument.step] at hs
    split at hs
    case isFalse => cases hs
    case isTrue =>
      obtain rfl := Option.some.inj hs
      exact h.shrink rfl rfl rfl rfl (List.Subset.refl _) (List.Sublist.refl _) hqueue
  | reclaim id =>
    simp only [ImageDocument.step] at hs
    split at hs
    case isTrue => cases hs
    case isFalse =>
      obtain rfl := Option.some.inj hs
      exact h.shrink rfl rfl rfl rfl (List.Subset.refl _) List.filter_sublist hqueue

/-- The invariant holds in every run. -/
theorem inv_of_reachable (h : (machine d).Reachable Machine.anyEvent s) : s.Inv := by
  refine h.invariant (fun s hs => ?_) fun _ _ _ hs _ hstep => hs.step hstep
  obtain ⟨nextId, cache, hpos, rfl⟩ := hs
  exact ⟨hpos, List.nodup_nil, nofun, nofun, nofun, nofun, nofun, nofun, nofun⟩

/-- The invariant keeps the promises. -/
theorem Inv.faithful (h : s.Inv) : s.Faithful d where
  reference r hr := (h.rows r hr).reference
  given r hr hp := by
    have hrow := h.rows r hr
    split
    case h_1 hnone => exact (hrow.unanswered hnone hp).1
    case h_2 bytes hsome => exact ⟨(hrow.answered bytes hsome).1, (hrow.answered bytes hsome).2 hp⟩
  waits r hr := (h.rows r hr).waits
  saved r hr hp source hsource := by
    have hsame : r.source = source := by rw [BoundImage.source, sourceOf, hsource]
    refine find_savedParams hsource ?_
    rw [((h.rows r hr).reference hp).1, hsame]
  settles fetch bytes rest s' hbatch hs := by
    simp only [ImageDocument.step, hbatch] at hs
    obtain rfl := Option.some.inj hs
    exact (h.settleArrival hbatch).2

open PyramidPins (lengthDecoder)

/-- A document without images. -/
def noImages : ImageDocument ℕ := { nextId := 1, cache := { budget := 9 }, pending := .init }

theorem start_noImages : (machine lengthDecoder).start noImages :=
  ⟨1, { budget := 9 }, by decide, rfl⟩

/-- The parameters that carry a reference. -/
def paramsOf (source : String) : Json := .object [("source", .string source)]

end ImageDocument

end ArbitraryComposer
